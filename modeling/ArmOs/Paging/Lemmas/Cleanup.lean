import ArmOs.Paging.Lemmas.Maps
import ArmOs.Exec.Lemmas.Setup

/-!
# Giving up an address space

`setup_uvm` and `copy_uvm` fail with no tables, with an upper table only, or with all of the tables. `free_vm` takes
each of these apart.
-/

namespace ArmOs

open Lib

variable {L : Layout} {M M' : Memory} {m : Mem} {s t : Kernel} {p : Proc} {name : Nat → UInt8}
  {map page pud pmd frame v src size : Nat} {xs ys : List Nat}

/-- The map at `map` is as `alloc_new_process` leaves it, and the free list is `xs`. -/
structure FreshMap (L : Layout) (M : Memory) (map : Nat) (xs : List Nat) : Prop where
  empty : NoEntry M.mem map
  page : HeapPage L map
  free : FreeIs L M xs
  notFree : map ∉ xs

/-- The free list has the pages `xs` and the page of the map, each of them once. -/
def PagesBack (map : Nat) (xs : List Nat) (M : Memory) : Prop := ∃ ys, FreeList M ys ∧ ys.Perm (map :: xs)

theorem FreeIs.kfree (h : FreeIs L M xs) (hv : HeapPage L v) (hnot : v ∉ xs) :
    ∃ M', kfree L v M = .ok M' ∧ FreeIs L M' (v :: xs) ∧ OnlyIn [v] M.mem M'.mem := by
  obtain ⟨hrun, hlist, honly⟩ := kfree_spec h.list h.pages hv hnot
  exact ⟨_, hrun, ⟨hlist, List.forall_mem_cons.mpr ⟨hv, h.pages⟩, List.nodup_cons.mpr ⟨hnot, h.nodup⟩⟩, honly⟩

/-! ## Lookups that do not allocate -/

theorem findEntry_memory {k attr ptr : Nat} (h : findEntry L map k false attr M = .ok (ptr, M')) : M' = M := by
  unfold findEntry at h
  split at h
  · exact (Prod.mk.inj (Except.ok.inj h)).2.symm
  · exact (Prod.mk.inj (Except.ok.inj h)).2.symm

theorem findPudEntry_memory {va attr ptr : Nat} (h : findPudEntry L map va false attr M = .ok (ptr, M')) : M' = M := by
  obtain ⟨⟨pud, M₁⟩, hpgd, h⟩ := bind_eq_ok.mp h
  rw [← findEntry_memory hpgd]
  dsimp only at h
  split at h
  · exact (Prod.mk.inj (Except.ok.inj h)).2.symm
  · exact findEntry_memory h

/-! ## `free_vm` without all the tables -/

theorem freePmd_none (h : NoEntry M.mem map) : freePmd L map M = .ok M :=
  foldlM_stays fun i hi => if_neg (h i (List.mem_range.mp hi))

theorem freePud_none (h : NoEntry M.mem map) : freePud L map M = .ok M :=
  foldlM_stays fun i hi => freeEntry_none (h i (List.mem_range.mp hi))

/-- A map without entries. -/
theorem freeVm_none (h : NoEntry M.mem map) (hfree : FreeIs L M xs) (hmap : HeapPage L map) (hnot : map ∉ xs) :
    ∃ M', freeVm L map M = .ok M' ∧ FreeIs L M' (map :: xs) := by
  have haligned : userBase % pageSize = 0 := by decide
  have hpage : freePage L map userBase M = .ok M := by
    simp [freePage, ASSERT, require_of haligned, findPudEntry, findPgdEntry, findEntry_none h (index_lt _), pgdIndex,
      pure, Except.pure]
  obtain ⟨M', hrun, hfree', -⟩ := hfree.kfree hmap hnot
  refine ⟨M', ?_, hfree'⟩
  rw [freeVm, hpage, ok_bind, freePmd_none h, ok_bind, freePud_none h, ok_bind, freePgd, hrun]

/-- A map with an upper table that is empty. -/
theorem freeVm_upper (h : OnlyEntry pdeAddr M.mem map 0 pud) (hupper : NoEntry M.mem pud) (hfree : FreeIs L M xs)
    (hmap : HeapPage L map) (hpud : HeapPage L pud) (hne : map ≠ pud) (hnot : map ∉ xs) (hnot' : pud ∉ xs) :
    ∃ M', freeVm L map M = .ok M' ∧ FreeIs L M' (map :: pud :: xs) := by
  have haligned : userBase % pageSize = 0 := by decide
  have hpage : freePage L map userBase M = .ok M := by
    simp only [freePage, ASSERT, require_of haligned, findPudEntry, findPgdEntry, pgdIndex_userBase, findEntry_found h,
      ok_bind, hpud.ne_zero, if_false, pudIndex_userBase, findEntry_none hupper (by decide : 0 < 512)]
    rfl
  have hpmd : freePmd L map M = .ok M := by
    refine foldlM_first 511 ?_ fun i hi hne => if_neg (h.rest i hi hne)
    rw [if_pos h.entry.valid, h.entry.addr]
    exact foldlM_stays fun j hj => freeEntry_none (hupper j (List.mem_range.mp hj))
  obtain ⟨M₁, hrun₁, hfree₁, -⟩ := freePud_spec h hfree.list hfree.pages ⟨hmap, hpud⟩ hne ⟨hnot, hnot'⟩
  have hfree₁ : FreeIs L M₁ (pud :: xs) :=
    ⟨hfree₁, List.forall_mem_cons.mpr ⟨hpud, hfree.pages⟩, List.nodup_cons.mpr ⟨hnot', hfree.nodup⟩⟩
  obtain ⟨M₂, hrun₂, hfree₂, -⟩ := hfree₁.kfree hmap (by simp [hne, hnot])
  refine ⟨M₂, ?_, hfree₂⟩
  rw [freeVm, hpage, ok_bind, hpmd, ok_bind, hrun₁, ok_bind, freePgd, hrun₂]

/-! ## The failures -/

/-- With fewer than three free pages the user page is not mapped, and it is freed before the map. -/
theorem FreshMap.unmapped (h : FreshMap L M map (page :: xs)) (hfew : xs.length < 2) :
    ∃ M₁ M₂ N, kalloc L M = .ok (page, { M with freeMemory := M.mem.read 8 page }) ∧ page ≠ 0 ∧
      mapPage L map userBase (v2p page) userAttribute (clearedPage M page) = .ok (false, M₁) ∧
      kfree L page M₁ = .ok M₂ ∧ freeVm L map M₂ = .ok N ∧ PagesBack map (page :: xs) N := by
  have hpage := h.free.pages page List.mem_cons_self
  obtain ⟨hmp, hmx⟩ : map ≠ page ∧ map ∉ xs := by simpa using h.notFree
  obtain ⟨hpx, hnodup⟩ := List.nodup_cons.mp h.free.nodup
  have hxs : ∀ w ∈ xs, HeapPage L w := fun w hw => h.free.pages w (List.mem_cons_of_mem page hw)
  obtain ⟨hfree, hfill⟩ := clearedPage_free h.free.list h.free.pages h.free.nodup
  have hempty : NoEntry (clearedPage M page).mem map :=
    h.empty.congr (hfill.same (by simpa using hpage) h.page (by simpa using hmp))
  have halloc := (kalloc_cons h.free.list hpage).1
  cases xs with
  | nil =>
      have hrun : mapPage L map userBase (v2p page) userAttribute (clearedPage M page) = .ok (false, clearedPage M page) := by
        rw [mapPage_unfold hpage]
        simp only [findPudEntry, findPgdEntry, pgdIndex_userBase, findEntry_full hempty (by decide : 0 < 512) hfree,
          ok_bind, if_true]
        rfl
      have hnone : FreeIs L (clearedPage M page) [] := ⟨hfree, List.forall_mem_nil _, .nil⟩
      obtain ⟨M₂, hrun₂, hfree₂, honly₂⟩ := hnone.kfree hpage (by simp)
      have hempty₂ := hempty.congr (honly₂.same (by simpa using hpage) h.page (by simpa using hmp))
      obtain ⟨N, hrun₃, hfree₃⟩ := freeVm_none hempty₂ hfree₂ h.page (by simpa using hmp)
      exact ⟨_, M₂, N, halloc, hpage.ne_zero, hrun, hrun₂, hrun₃, _, hfree₃.list, .refl _⟩
  | cons pud xs =>
      cases xs with
      | cons pmd xs => exact absurd hfew (by simp)
      | nil =>
          have hpud := hxs pud List.mem_cons_self
          have hmpud : map ≠ pud := by simpa using hmx
          have hppud : page ≠ pud := by simpa using hpx
          obtain ⟨M₁, hrun₁, hfree₁, hmap₁, hpud₁, -⟩ := findEntry_new (k := 0) hempty (by decide) hfree hxs hnodup h.page hmx
          have hrun : mapPage L map userBase (v2p page) userAttribute (clearedPage M page) = .ok (false, M₁) := by
            rw [mapPage_unfold hpage]
            simp only [findPudEntry, findPgdEntry, pgdIndex_userBase, hrun₁, ok_bind, hpud.ne_zero, if_false,
              pudIndex_userBase, findEntry_full hpud₁ (by decide : 0 < 512) hfree₁, if_true]
            rfl
          have hnone : FreeIs L M₁ [] := ⟨hfree₁, List.forall_mem_nil _, .nil⟩
          obtain ⟨M₂, hrun₂, hfree₂, honly₂⟩ := hnone.kfree hpage (by simp)
          have hmap₂ := hmap₁.congr (by decide) (honly₂.same (by simpa using hpage) h.page (by simpa using hmp))
          have hpud₂ := hpud₁.congr (honly₂.same (by simpa using hpage) hpud (by simpa using hppud.symm))
          obtain ⟨N, hrun₃, hfree₃⟩ := freeVm_upper hmap₂ hpud₂ hfree₂ h.page hpud hmpud (by simpa using hmp)
            (by simpa using hppud.symm)
          exact ⟨M₁, M₂, N, halloc, hpage.ne_zero, hrun, hrun₂, hrun₃, _, hfree₃.list, (List.Perm.swap _ _ _).cons _⟩

/-- Once the user page is mapped, `free_vm` frees it with the tables. -/
theorem FreshMap.mapped (h : FreshMap L M map (frame :: pud :: pmd :: xs)) :
    ∃ M' N, Mapped L M M' map pud pmd frame xs ∧ freeVm L map M' = .ok N ∧
      PagesBack map (frame :: pud :: pmd :: xs) N := by
  obtain ⟨M', hM⟩ := mapped_of_free h.empty h.free.list h.free.pages h.free.nodup h.page h.notFree
  have hpages : ∀ w ∈ [map, pud, pmd, frame], HeapPage L w := by
    simp [h.page, h.free.pages frame, h.free.pages pud, h.free.pages pmd]
  have hperm : (map :: pud :: pmd :: frame :: xs).Perm (map :: frame :: pud :: pmd :: xs) :=
    (@List.perm_middle Nat frame [pud, pmd] xs).cons map
  have hnodup : (map :: pud :: pmd :: frame :: xs).Nodup :=
    hperm.nodup_iff.mpr (List.nodup_cons.mpr ⟨h.notFree, h.free.nodup⟩)
  obtain ⟨N, hrun, hfree, -⟩ := freeVm_spec hM.space hM.free
    (fun w hw => h.free.pages w (by simp [hw])) hpages hnodup
  exact ⟨M', N, hM, hrun, _, hfree, hperm⟩

end ArmOs
