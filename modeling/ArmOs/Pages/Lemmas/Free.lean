import ArmOs.Pages.Lemmas.Spaces

/-!
# Taking address spaces apart

`free_vm` frees the frame, the middle table, the upper table and the page directory, in this order. `kfree` writes
its link over the first entry of a table, but the table is empty by then.
-/

namespace ArmOs

open Lib

variable {L : Layout} {M M' : Memory} {map v pgd pud pmd frame k : Nat} {xs : List Nat} {addr : Nat → Nat}

/-! ## One entry -/

theorem freeEntry_none (h : ¬isValid (entryAt M.mem map k)) : freeEntry L addr map k M = .ok M := if_neg h

/-- Freeing the only entry of a table leaves the table empty. -/
theorem freeEntry_spec (h : OnlyEntry addr M.mem map k v) (hk : k < 512) (hfree : FreeList M xs)
    (hxs : ∀ w ∈ xs, HeapPage L w) (hv : HeapPage L v) (hvx : v ∉ xs) (hmap : HeapPage L map) (hmv : map ≠ v)
    (hmx : map ∉ xs) :
    ∃ M', freeEntry L addr map k M = .ok M' ∧ FreeList M' (v :: xs) ∧ NoEntry M'.mem map ∧
      OnlyIn [v, map] M.mem M'.mem := by
  obtain ⟨hrun, hfree', honly⟩ := kfree_spec hfree hxs hv hvx
  have hpage : ∀ w ∈ [v], HeapPage L w := fun w hw => List.mem_singleton.mp hw ▸ hv
  have hpage' : ∀ w ∈ [map], HeapPage L w := fun w hw => List.mem_singleton.mp hw ▸ hmap
  have hsame := honly.same hpage hmap (by simpa using hmv)
  have hclear : OnlyIn [map] (M.mem.write 8 v M.freeMemory)
      ((M.mem.write 8 v M.freeMemory).write 8 (map + 8 * k) 0) :=
    .write (Nat.le_add_right _ _) (by rw [pageSize_eq]; omega)
  refine ⟨⟨(M.mem.write 8 v M.freeMemory).write 8 (map + 8 * k) 0, v⟩, ?_, ?_, ?_, honly.trans hclear⟩
  · simp only [freeEntry, if_pos h.entry.valid, h.entry.addr, hrun, ok_bind]
    rfl
  · refine hfree'.onlyIn rfl hclear hpage' (fun w hw => ?_) fun w hw => ?_
    · cases List.mem_cons.mp hw with
      | inl heq => exact heq ▸ hv
      | inr hw => exact hxs w hw
    · rw [List.mem_singleton.mp hw, List.mem_cons, not_or]
      exact ⟨hmv, hmx⟩
  · exact (h.congr hk hsame).clear

/-! ## The loops over a table -/

/-- Only the first round of a loop over a table does something. -/
theorem foldlM_first {ε α : Type} {f : α → Nat → Except ε α} {a b : α} (n : Nat) (hfirst : f a 0 = .ok b)
    (hrest : ∀ i < n + 1, i ≠ 0 → f b i = .ok b) : (List.range (n + 1)).foldlM f a = .ok b := by
  rw [List.range_succ_eq_map, List.foldlM_cons, hfirst, ok_bind]
  have hall : ∀ i ∈ (List.range n).map Nat.succ, f b i = .ok b := by
    intro i hi
    obtain ⟨j, hj, rfl⟩ := List.mem_map.mp hi
    exact hrest _ (Nat.succ_lt_succ (List.mem_range.mp hj)) (Nat.succ_ne_zero j)
  exact foldlM_stays hall

/-- `free_pmd` frees the only middle table. -/
theorem freePmd_spec (hpgd : OnlyEntry pdeAddr M.mem pgd 0 pud) (hpud : OnlyEntry pdeAddr M.mem pud 0 pmd)
    (hfree : FreeList M xs) (hxs : ∀ w ∈ xs, HeapPage L w) (hpages : ∀ w ∈ [pgd, pud, pmd], HeapPage L w)
    (hnodup : [pgd, pud, pmd].Nodup) (hnot : ∀ w ∈ [pgd, pud, pmd], w ∉ xs) :
    ∃ M', freePmd L pgd M = .ok M' ∧ FreeList M' (pmd :: xs) ∧ OnlyIn [pmd, pud] M.mem M'.mem := by
  simp only [List.forall_mem_cons] at hpages hnot
  simp only [List.nodup_cons, List.mem_cons, List.not_mem_nil, or_false, not_or] at hnodup
  obtain ⟨⟨hne₁, hne₂⟩, hne₃, -⟩ := hnodup
  obtain ⟨M', hrun, hfree', hempty, honly⟩ := freeEntry_spec hpud (by decide) hfree hxs hpages.2.2.1 hnot.2.2.1
    hpages.2.1 hne₃ hnot.2.1
  have hsame : Mem.Same M.mem M'.mem pgd pageSize :=
    honly.same (L := L) (by simp [hpages]) hpages.1 (by simp [hne₁, hne₂])
  have hpgd' := hpgd.congr (by decide) hsame
  refine ⟨M', foldlM_first 511 ?_ fun i hi hne => if_neg (hpgd'.rest i hi hne), hfree', honly⟩
  rw [if_pos hpgd.entry.valid, hpgd.entry.addr]
  exact foldlM_first 511 hrun fun j hj hne => freeEntry_none (hempty j hj)

/-- `free_pud` frees the only upper table. -/
theorem freePud_spec (hpgd : OnlyEntry pdeAddr M.mem pgd 0 pud) (hfree : FreeList M xs)
    (hxs : ∀ w ∈ xs, HeapPage L w) (hpages : HeapPage L pgd ∧ HeapPage L pud) (hne : pgd ≠ pud)
    (hnot : pgd ∉ xs ∧ pud ∉ xs) :
    ∃ M', freePud L pgd M = .ok M' ∧ FreeList M' (pud :: xs) ∧ OnlyIn [pud, pgd] M.mem M'.mem := by
  obtain ⟨M', hrun, hfree', hempty, honly⟩ := freeEntry_spec hpgd (by decide) hfree hxs hpages.2 hnot.2
    hpages.1 hne hnot.1
  exact ⟨M', foldlM_first 511 hrun fun i hi _ => freeEntry_none (hempty i hi), hfree', honly⟩

/-- `free_page` frees the frame and leaves the middle table empty. -/
theorem freePage_spec (h : AddrSpace M.mem pgd pud pmd frame) (hfree : FreeList M xs)
    (hxs : ∀ w ∈ xs, HeapPage L w) (hpages : ∀ w ∈ [pgd, pud, pmd, frame], HeapPage L w) (hne : pmd ≠ frame)
    (hnot : pmd ∉ xs ∧ frame ∉ xs) :
    ∃ M', freePage L pgd userBase M = .ok M' ∧ FreeList M' (frame :: xs) ∧ OnlyIn [frame, pmd] M.mem M'.mem := by
  simp only [List.forall_mem_cons] at hpages
  have haligned : userBase % pageSize = 0 := by decide
  obtain ⟨M', hrun, hfree', -, honly⟩ := freeEntry_spec h.pmd (by decide) hfree hxs hpages.2.2.2.1 hnot.2
    hpages.2.2.1 hne hnot.1
  refine ⟨M', ?_, hfree', honly⟩
  simp only [freePage, ASSERT, require_of haligned, ok_bind, findPudEntry_found h hpages.2.1, ne_eq,
    hpages.2.2.1.ne_zero, not_false_eq_true, if_true, pmdIndex_userBase]
  exact hrun

/-! ## `free_vm` -/

/-- `free_vm` puts the four pages of an address space on the free list. -/
theorem freeVm_spec (h : AddrSpace M.mem pgd pud pmd frame) (hfree : FreeList M xs)
    (hxs : ∀ w ∈ xs, HeapPage L w) (hpages : ∀ w ∈ [pgd, pud, pmd, frame], HeapPage L w)
    (hnodup : (pgd :: pud :: pmd :: frame :: xs).Nodup) :
    ∃ M', freeVm L pgd M = .ok M' ∧ FreeList M' (pgd :: pud :: pmd :: frame :: xs) ∧
      OnlyIn [pgd, pud, pmd, frame] M.mem M'.mem := by
  obtain ⟨hp₁, hp₂, hp₃, hp₄⟩ : HeapPage L pgd ∧ HeapPage L pud ∧ HeapPage L pmd ∧ HeapPage L frame := by
    simpa using hpages
  simp only [List.nodup_cons, List.mem_cons, not_or] at hnodup
  obtain ⟨⟨h₁₂, h₁₃, h₁₄, h₁x⟩, ⟨h₂₃, h₂₄, h₂x⟩, ⟨h₃₄, h₃x⟩, h₄x, hx⟩ := hnodup
  have hcons : ∀ {w ws}, HeapPage L w → (∀ u ∈ ws, HeapPage L u) → ∀ u ∈ w :: ws, HeapPage L u :=
    fun hw hws => List.forall_mem_cons.mpr ⟨hw, hws⟩
  obtain ⟨M₁, hrun₁, hfree₁, honly₁⟩ := freePage_spec h hfree hxs hpages h₃₄ ⟨h₃x, h₄x⟩
  have hpgd₁ := h.pgd.congr (by decide) (honly₁.same (L := L) (by simp [hp₃, hp₄]) hp₁ (by simp [h₁₄, h₁₃]))
  have hpud₁ := h.pud.congr (by decide) (honly₁.same (L := L) (by simp [hp₃, hp₄]) hp₂ (by simp [h₂₄, h₂₃]))
  obtain ⟨M₂, hrun₂, hfree₂, honly₂⟩ := freePmd_spec hpgd₁ hpud₁ hfree₁ (hcons hp₄ hxs) (by simp [hp₁, hp₂, hp₃])
    (by simp [h₁₂, h₁₃, h₂₃]) (by simp [h₁₄, h₁x, h₂₄, h₂x, h₃₄, h₃x])
  have hpgd₂ := hpgd₁.congr (by decide) (honly₂.same (L := L) (by simp [hp₂, hp₃]) hp₁ (by simp [h₁₂, h₁₃]))
  obtain ⟨M₃, hrun₃, hfree₃, honly₃⟩ := freePud_spec hpgd₂ hfree₂ (hcons hp₃ (hcons hp₄ hxs)) ⟨hp₁, hp₂⟩ h₁₂
    (by simp [h₁₃, h₁₄, h₁x, h₂₃, h₂₄, h₂x])
  obtain ⟨hrun₄, hfree₄, honly₄⟩ := kfree_spec hfree₃ (hcons hp₂ (hcons hp₃ (hcons hp₄ hxs))) hp₁
    (by simp [h₁₂, h₁₃, h₁₄, h₁x])
  have hsub : [frame, pmd] ++ [pmd, pud] ++ [pud, pgd] ++ [pgd] ⊆ [pgd, pud, pmd, frame] := by simp
  refine ⟨_, ?_, hfree₄, (((honly₁.trans honly₂).trans honly₃).trans honly₄).weaken hsub⟩
  rw [freeVm, hrun₁, ok_bind, hrun₂, ok_bind, hrun₃, ok_bind, freePgd, hrun₄]

end ArmOs
