import ArmOs.Pages.Lemmas.Owners

/-!
# The pages of a new process

`alloc_new_process` takes a kernel stack and a page directory, and `copy_uvm` a frame and two tables. Both succeed
if there are enough free pages, and only then.
-/

namespace ArmOs

open Lib

variable {L : Layout} {M M' : Memory} {s t : Kernel} {i : Proc} {xs : List Nat}
  {v stack pgd pud pmd frame src srcPud srcPmd srcFrame : Nat}

/-! ## `alloc_new_process` -/

theorem newStack_onlyIn (L : Layout) (stack : Nat) (m : Mem) : OnlyIn [stack] m (newStack L stack m) := by
  have hsize : TrapFrame.size + 12 * 8 ≤ pageSize := by decide
  have hfields : TrapFrame.elr + 8 ≤ TrapFrame.size ∧ TrapFrame.sp0 + 8 ≤ TrapFrame.size ∧
      TrapFrame.spsr + 8 ≤ TrapFrame.size := by decide
  obtain ⟨helr, hsp0, hspsr⟩ := hfields
  refine OnlyIn.trans_self ?_ (.write (by omega) (by omega))
  refine OnlyIn.trans_self ?_ (.write (by omega) (by omega))
  refine OnlyIn.trans_self ?_ (.write (by omega) (by omega))
  exact OnlyIn.trans_self (.fill (Nat.le_refl _) (Nat.le_refl _)) (.write (by omega) (by omega))

/-- A page that `kalloc` returns was the first one of the list. -/
theorem kalloc_ne_zero (hfree : FreeList M xs) (hxs : ∀ w ∈ xs, HeapPage L w) (h : kalloc L M = .ok (v, M'))
    (hne : v ≠ 0) : ∃ ys, xs = v :: ys := by
  cases xs with
  | nil =>
      rw [kalloc_nil hfree] at h
      cases h
      exact absurd rfl hne
  | cons x ys =>
      rw [(kalloc_cons hfree (hxs x List.mem_cons_self)).1] at h
      cases h
      exact ⟨ys, rfl⟩

/-- The state after `alloc_new_process` with the pages `stack` and `pgd`. -/
def allocated (s : Kernel) (i : Proc) (stack pgd : Nat) (M : Memory) : Kernel :=
  { (s.setProc i (newProcess s i stack pgd)).setKont i .ret with memory := M, pidNum := int32 (s.pidNum + 1) }

/-- The new process has an empty page directory and a kernel stack with its first frames. -/
theorem allocNewProcess_run (hfound : findUnusedProcess s = some i) (hfree : FreeList s.memory (stack :: pgd :: xs))
    (hxs : ∀ w ∈ stack :: pgd :: xs, HeapPage L w) (hnodup : (stack :: pgd :: xs).Nodup) :
    ∃ M, allocNewProcess L s = .ok (i, allocated s i stack pgd M) ∧ FreeList M xs ∧ NoEntry M.mem pgd ∧
      OnlyIn [stack, pgd] s.memory.mem M.mem ∧
      Mem.Same (newStack L stack s.memory.mem) M.mem stack pageSize := by
  have hstack := hxs stack (by simp)
  have hpgd := hxs pgd (by simp)
  have hxs' : ∀ w ∈ pgd :: xs, HeapPage L w := fun w hw => hxs w (List.mem_cons_of_mem _ hw)
  obtain ⟨hsx, hnodup'⟩ := List.nodup_cons.mp hnodup
  obtain ⟨hpx, -⟩ := List.nodup_cons.mp hnodup'
  obtain ⟨hne, -⟩ : stack ≠ pgd ∧ stack ∉ xs := by simpa using hsx
  have hpage : ∀ {u}, HeapPage L u → ∀ w ∈ [u], HeapPage L w := fun hu w hw => List.mem_singleton.mp hw ▸ hu
  obtain ⟨hrun₁, hfree₁⟩ := kalloc_cons hfree hstack
  have hnew := newStack_onlyIn L stack s.memory.mem
  have hfree₂ : FreeList ⟨newStack L stack s.memory.mem, s.memory.mem.read 8 stack⟩ (pgd :: xs) :=
    hfree₁.onlyIn rfl hnew (hpage hstack) hxs' (by simpa using hsx)
  obtain ⟨hrun₃, hfree₃⟩ := kalloc_cons hfree₂ hpgd
  have hfill : OnlyIn [pgd] (newStack L stack s.memory.mem) ((newStack L stack s.memory.mem).fill pgd pageSize 0) :=
    .fill (Nat.le_refl _) (Nat.le_refl _)
  refine ⟨⟨(newStack L stack s.memory.mem).fill pgd pageSize 0, (newStack L stack s.memory.mem).read 8 pgd⟩, ?_,
    hfree₃.onlyIn rfl hfill (hpage hpgd) (fun w hw => hxs' w (List.mem_cons_of_mem _ hw)) (by simpa using hpx),
    NoEntry.fill _ _, hnew.trans hfill, hfill.same (hpage hpgd) hstack (by simpa using hne)⟩
  unfold newStack at hrun₃
  simp only [allocNewProcess, hfound, hrun₁, ok_bind, deref, ASSERT, ne_eq, hstack.ne_zero, not_false_eq_true,
    require_of, hrun₃, hpgd.ne_zero]
  rfl

theorem allocNewProcess_pages (h : allocNewProcess L s = .ok (i, t)) (hfree : FreeList s.memory xs)
    (hxs : ∀ w ∈ xs, HeapPage L w) (hnodup : xs.Nodup) : ∃ stack pgd ys, xs = stack :: pgd :: ys := by
  obtain ⟨-, stack, pgd, M₁, M₂, hrun₁, hne₁, hrun₂, hne₂, -⟩ := allocNewProcess_ok h
  obtain ⟨ys, rfl⟩ := kalloc_ne_zero hfree hxs hrun₁ hne₁
  have hstack := hxs stack List.mem_cons_self
  have hys : ∀ w ∈ ys, HeapPage L w := fun w hw => hxs w (List.mem_cons_of_mem _ hw)
  obtain ⟨hrun, hrest⟩ := kalloc_cons hfree hstack
  cases hrun.symm.trans hrun₁
  have hfree' : FreeList ⟨newStack L stack s.memory.mem, s.memory.mem.read 8 stack⟩ ys :=
    hrest.onlyIn rfl (newStack_onlyIn L stack _) (by simpa using hstack) hys
      (by simpa using (List.nodup_cons.mp hnodup).1)
  obtain ⟨zs, rfl⟩ := kalloc_ne_zero hfree' hys hrun₂ hne₂
  exact ⟨stack, pgd, zs, rfl⟩

/-! ## A frame and its tables -/

/-- A fresh page, filled with zeros. -/
def clearedPage (M : Memory) (v : Nat) : Memory := ⟨M.mem.fill v pageSize 0, M.mem.read 8 v⟩

theorem clearedPage_free (hfree : FreeList M (v :: xs)) (hxs : ∀ w ∈ v :: xs, HeapPage L w)
    (hnodup : (v :: xs).Nodup) : FreeList (clearedPage M v) xs ∧ OnlyIn [v] M.mem (clearedPage M v).mem := by
  have hv := hxs v List.mem_cons_self
  have hfill : OnlyIn [v] M.mem (M.mem.fill v pageSize 0) := .fill (Nat.le_refl _) (Nat.le_refl _)
  refine ⟨(kalloc_cons hfree hv).2.onlyIn rfl hfill (by simpa using hv) (fun w hw => hxs w (List.mem_cons_of_mem _ hw))
    ?_, hfill⟩
  simpa using (List.nodup_cons.mp hnodup).1

/-- A frame of zeros is mapped with two fresh tables. -/
structure Mapped (L : Layout) (M M' : Memory) (pgd pud pmd frame : Nat) (xs : List Nat) : Prop where
  alloc : kalloc L M = .ok (frame, { M with freeMemory := M.mem.read 8 frame })
  map : mapPage L pgd userBase (v2p frame) userAttribute (clearedPage M frame) = .ok (true, M')
  free : FreeList M' xs
  space : AddrSpace M'.mem pgd pud pmd frame
  only : OnlyIn [frame, pgd, pud, pmd] M.mem M'.mem
  zero : Mem.Same (M.mem.fill frame pageSize 0) M'.mem frame pageSize

theorem mapped_of_free (hempty : NoEntry M.mem pgd) (hfree : FreeList M (frame :: pud :: pmd :: xs))
    (hxs : ∀ w ∈ frame :: pud :: pmd :: xs, HeapPage L w) (hnodup : (frame :: pud :: pmd :: xs).Nodup)
    (hpgd : HeapPage L pgd) (hnot : pgd ∉ frame :: pud :: pmd :: xs) :
    ∃ M', Mapped L M M' pgd pud pmd frame xs := by
  have hframe := hxs frame (by simp)
  have hxs' : ∀ w ∈ pud :: pmd :: xs, HeapPage L w := fun w hw => hxs w (List.mem_cons_of_mem _ hw)
  obtain ⟨hfx, hnodup'⟩ := List.nodup_cons.mp hnodup
  obtain ⟨hpf, hnot'⟩ : pgd ≠ frame ∧ pgd ∉ pud :: pmd :: xs := by simpa using hnot
  have hframe' : ∀ w ∈ [frame], HeapPage L w := fun w hw => List.mem_singleton.mp hw ▸ hframe
  obtain ⟨hfree₁, hfill⟩ := clearedPage_free hfree hxs hnodup
  have hempty₁ : NoEntry (clearedPage M frame).mem pgd := hempty.congr (hfill.same hframe' hpgd (by simpa using hpf))
  obtain ⟨M', hrun, hfree', hspace, honly⟩ := mapPage_spec hempty₁ hfree₁ hxs' hnodup' hpgd hnot' hframe
  obtain ⟨hfpud, hfpmd, -⟩ : frame ≠ pud ∧ frame ≠ pmd ∧ frame ∉ xs := by simpa using hfx
  have htables : ∀ w ∈ [pgd, pud, pmd], HeapPage L w := by simp [hpgd, hxs pud, hxs pmd]
  exact ⟨M', (kalloc_cons hfree hframe).1, hrun, hfree', hspace, hfill.trans honly,
    honly.same htables hframe (by simp [hpf.symm, hfpud, hfpmd])⟩

/-- It takes three free pages. -/
theorem mapped_pages {M₁ : Memory} (hrun₁ : kalloc L M = .ok (frame, M₁)) (hne : frame ≠ 0)
    (hrun : mapPage L pgd userBase (v2p frame) userAttribute { M₁ with mem := M₁.mem.fill frame pageSize 0 } =
      .ok (true, M'))
    (hempty : NoEntry M.mem pgd) (hfree : FreeList M xs) (hxs : ∀ w ∈ xs, HeapPage L w) (hnodup : xs.Nodup)
    (hpgd : HeapPage L pgd) (hnot : pgd ∉ xs) : ∃ pud pmd ys, xs = frame :: pud :: pmd :: ys := by
  obtain ⟨ys, rfl⟩ := kalloc_ne_zero hfree hxs hrun₁ hne
  have hframe := hxs frame List.mem_cons_self
  obtain ⟨hpf, hpy⟩ : pgd ≠ frame ∧ pgd ∉ ys := by simpa using hnot
  have hframe' : ∀ w ∈ [frame], HeapPage L w := fun w hw => List.mem_singleton.mp hw ▸ hframe
  obtain ⟨-, hM₁⟩ := Prod.mk.inj (Except.ok.inj (hrun₁.symm.trans (kalloc_cons hfree hframe).1))
  obtain ⟨hfree₁, hfill⟩ := clearedPage_free hfree hxs hnodup
  have hempty₁ : NoEntry (clearedPage M frame).mem pgd := hempty.congr (hfill.same hframe' hpgd (by simpa using hpf))
  have hclear : ({ M₁ with mem := M₁.mem.fill frame pageSize 0 } : Memory) = clearedPage M frame := by
    rw [hM₁, clearedPage]
  rw [hclear] at hrun
  obtain ⟨pud, pmd, zs, rfl⟩ := mapPage_true hempty₁ hfree₁ (fun w hw => hxs w (List.mem_cons_of_mem _ hw))
    (List.nodup_cons.mp hnodup).2 hpgd hpy hframe hrun
  exact ⟨pud, pmd, zs, rfl⟩

/-! ## `copy_uvm` -/

theorem entryV_of_valid {e : Nat} (h : isValid e) : e &&& entryV = 1 := by
  have h : e &&& 1 ≠ 0 := h
  show e &&& 1 = 1
  rw [Nat.and_one_is_mod] at h ⊢
  omega

/-- `copy_uvm` maps a copy of the frame in the tables at `pgd`. -/
theorem copyUvm_run (hempty : NoEntry M.mem pgd) (hfree : FreeList M (frame :: pud :: pmd :: xs))
    (hxs : ∀ w ∈ frame :: pud :: pmd :: xs, HeapPage L w) (hnodup : (frame :: pud :: pmd :: xs).Nodup)
    (hpgd : HeapPage L pgd) (hnot : pgd ∉ frame :: pud :: pmd :: xs)
    (hsrc : AddrSpace M.mem src srcPud srcPmd srcFrame) (hpages : ∀ w ∈ [src, srcPud, srcPmd, srcFrame], HeapPage L w)
    (hother : ∀ w ∈ [src, srcPud, srcPmd, srcFrame], w ∉ pgd :: frame :: pud :: pmd :: xs) :
    ∃ M', copyUvm L pgd src pageSize M = .ok (true, M') ∧ FreeList M' xs ∧ AddrSpace M'.mem pgd pud pmd frame ∧
      OnlyIn [frame, pgd, pud, pmd] M.mem M'.mem ∧
      M'.mem.bytes frame pageSize = M.mem.bytes srcFrame pageSize := by
  obtain ⟨M₃, hmap⟩ := mapped_of_free hempty hfree hxs hnodup hpgd hnot
  have hframe := hxs frame (by simp)
  have hframe' : ∀ w ∈ [frame], HeapPage L w := fun w hw => List.mem_singleton.mp hw ▸ hframe
  obtain ⟨hfpud, hfpmd, hfxs⟩ : frame ≠ pud ∧ frame ≠ pmd ∧ frame ∉ xs := by
    simpa using (List.nodup_cons.mp hnodup).1
  have hpf : pgd ≠ frame := by simp_all
  have hnew : ∀ w ∈ [frame, pgd, pud, pmd], HeapPage L w := by simp [hframe, hpgd, hxs pud, hxs pmd]
  have hsub : [frame, pgd, pud, pmd] ⊆ pgd :: frame :: pud :: pmd :: xs := by simp
  have hsame : ∀ w ∈ [src, srcPud, srcPmd, srcFrame], Mem.Same M.mem M₃.mem w pageSize := fun w hw =>
    hmap.only.same hnew (hpages w hw) fun hmem => hother w hw (hsub hmem)
  have hsrc₃ := hsrc.congr (hsame src (by simp)) (hsame srcPud (by simp)) (hsame srcPmd (by simp))
  have hcopy : OnlyIn [frame] M₃.mem (M₃.mem.copy frame srcFrame pageSize) := .copy (Nat.le_refl _) (Nat.le_refl _)
  have hkeep : ∀ w, HeapPage L w → w ≠ frame → Mem.Same M₃.mem (M₃.mem.copy frame srcFrame pageSize) w pageSize :=
    fun w hw hne => hcopy.same hframe' hw (by simpa using hne)
  have hrun : copyUvm L pgd src pageSize M = .ok (true, { M₃ with mem := M₃.mem.copy frame srcFrame pageSize }) := by
    have hassert : entryAt M₃.mem srcPmd 2 &&& entryV = 1 := entryV_of_valid hsrc₃.pmd.entry.valid
    have hrun₃ := hmap.map
    unfold clearedPage at hrun₃
    simp only [copyUvm, hmap.alloc, ok_bind, ne_eq, hframe.ne_zero, not_false_eq_true, if_true, hrun₃,
      findPudEntry_found hsrc₃ (hpages srcPud (by simp)), (hpages srcPmd (by simp)).ne_zero, if_false,
      pmdIndex_userBase, ASSERT, require_of hassert, hsrc₃.pmd.entry.addr]
    rfl
  refine ⟨_, hrun, ?_, ?_, ?_, ?_⟩
  · exact hmap.free.onlyIn rfl hcopy hframe' (fun w hw => hxs w (by simp [hw])) (by simpa using hfxs)
  · exact hmap.space.congr (hkeep pgd hpgd hpf) (hkeep pud (hxs pud (by simp)) hfpud.symm)
      (hkeep pmd (hxs pmd (by simp)) hfpmd.symm)
  · exact (hmap.only.trans hcopy).weaken (by simp)
  · exact (Mem.bytes_copy _ _ _ _).trans (Mem.bytes_congr (hsame srcFrame (by simp)))

theorem copyUvm_pages (h : copyUvm L pgd src pageSize M = .ok (true, M')) (hempty : NoEntry M.mem pgd)
    (hfree : FreeList M xs) (hxs : ∀ w ∈ xs, HeapPage L w) (hnodup : xs.Nodup) (hpgd : HeapPage L pgd)
    (hnot : pgd ∉ xs) : ∃ frame pud pmd ys, xs = frame :: pud :: pmd :: ys := by
  obtain ⟨⟨frame, M₁⟩, hrun₁, h⟩ := bind_eq_ok.mp h
  dsimp only at h
  split at h
  · rename_i hne
    obtain ⟨⟨status, M₃⟩, hrun₃, h⟩ := bind_eq_ok.mp h
    cases status with
    | true => exact ⟨frame, mapped_pages hrun₁ hne hrun₃ hempty hfree hxs hnodup hpgd hnot⟩
    | false =>
        obtain ⟨M₄, -, h⟩ := bind_eq_ok.mp h
        obtain ⟨M₅, -, h⟩ := bind_eq_ok.mp h
        cases h
  · cases h

end ArmOs
