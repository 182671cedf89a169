import ArmOs.Pages.Lemmas.Heap

/-!
# Address spaces

The page tables of a user process have one entry each: the page directory leads to one upper table, that to one
middle table, and that to the frame. `map_page` builds such tables from two free pages, `free_vm` takes them
apart, and the hardware finds the frame through them.
-/

namespace ArmOs

open Lib

variable {L : Layout} {m m' : Mem} {M M' : Memory} {map v pgd pud pmd frame i k e : Nat} {xs : List Nat}
  {addr : Nat → Nat}

/-! ## Entries -/

theorem isValid_zero : ¬isValid 0 := by decide

/-- The entries that `map_page` stores lead back to the pages they were made for. -/
theorem entry_bits : ∀ q < 384,
    (isValid (q * pageSize ||| userAttribute ||| tableEntry) ∧
      pdeAddr (q * pageSize ||| userAttribute ||| tableEntry) = q * pageSize ∧
      q * pageSize ||| userAttribute ||| tableEntry < 256 ^ 8) ∧
    (isValid (q * pageSize ||| userAttribute ||| blockEntry) ∧
      pteAddr (q * pageSize ||| userAttribute ||| blockEntry) = q * pageSize ∧
      q * pageSize ||| userAttribute ||| blockEntry < 256 ^ 8) := by decide +kernel

/-- The entry `e` is valid, fits in a word, and leads to the page `v`. -/
structure PointsTo (addr : Nat → Nat) (e v : Nat) : Prop where
  valid : isValid e
  addr : p2v (addr e) = v
  lt : e < 256 ^ 8

theorem HeapPage.tableEntry (h : HeapPage L v) : PointsTo pdeAddr (v2p v ||| userAttribute ||| tableEntry) v := by
  have hback := h.p2v_v2p
  obtain ⟨q, hq, rfl⟩ := h.exists_eq
  have hphys : v2p (kernelBase + q * pageSize) = q * pageSize := by
    rw [h.v2p_eq]
    omega
  rw [hphys] at hback ⊢
  obtain ⟨⟨hv, ha, hl⟩, -⟩ := entry_bits q hq
  exact ⟨hv, by rw [ha, hback], hl⟩

theorem HeapPage.blockEntry (h : HeapPage L v) : PointsTo pteAddr (v2p v ||| userAttribute ||| blockEntry) v := by
  have hback := h.p2v_v2p
  obtain ⟨q, hq, rfl⟩ := h.exists_eq
  have hphys : v2p (kernelBase + q * pageSize) = q * pageSize := by
    rw [h.v2p_eq]
    omega
  rw [hphys] at hback ⊢
  obtain ⟨-, hv, ha, hl⟩ := entry_bits q hq
  exact ⟨hv, by rw [ha, hback], hl⟩

theorem entryAt_write (m : Mem) (map k e : Nat) (he : e < 256 ^ 8) (i : Nat) :
    entryAt (m.write 8 (map + 8 * k) e) map i = if i = k then e else entryAt m map i := by
  unfold entryAt
  by_cases hi : i = k
  · subst hi
    rw [if_pos rfl, Mem.read_write_of_lt _ he]
  · rw [if_neg hi, Mem.read_write_ne]
    omega

theorem entryAt_fill (m : Mem) (map : Nat) (hi : i < 512) : entryAt (m.fill map pageSize 0) map i = 0 :=
  Mem.read_fill_zero _ (by omega) (by rw [pageSize_eq]; omega)

theorem entryAt_same (h : Mem.Same m m' map pageSize) (hi : i < 512) : entryAt m' map i = entryAt m map i :=
  Mem.read_congr (h.sub (by omega) (by rw [pageSize_eq]; omega))

/-! ## Tables -/

/-- The table is empty. -/
def NoEntry (m : Mem) (map : Nat) : Prop := ∀ i < 512, ¬isValid (entryAt m map i)

/-- The only entry of the table is the one at `k`, and it leads to the page `v`. -/
structure OnlyEntry (addr : Nat → Nat) (m : Mem) (map k v : Nat) : Prop where
  entry : PointsTo addr (entryAt m map k) v
  rest : ∀ i < 512, i ≠ k → ¬isValid (entryAt m map i)

theorem NoEntry.fill (m : Mem) (map : Nat) : NoEntry (m.fill map pageSize 0) map := fun i hi => by
  rw [entryAt_fill m map hi]
  exact isValid_zero

theorem NoEntry.congr (h : NoEntry m map) (hs : Mem.Same m m' map pageSize) : NoEntry m' map := fun i hi => by
  rw [entryAt_same hs hi]
  exact h i hi

theorem OnlyEntry.congr (h : OnlyEntry addr m map k v) (hk : k < 512) (hs : Mem.Same m m' map pageSize) :
    OnlyEntry addr m' map k v := by
  refine ⟨by rw [entryAt_same hs hk]; exact h.entry, fun i hi hik => ?_⟩
  rw [entryAt_same hs hi]
  exact h.rest i hi hik

theorem NoEntry.set (h : NoEntry m map) (he : PointsTo addr e v) :
    OnlyEntry addr (m.write 8 (map + 8 * k) e) map k v := by
  refine ⟨?_, fun i hi hik => ?_⟩
  · rw [entryAt_write m map k e he.lt, if_pos rfl]
    exact he
  · rw [entryAt_write m map k e he.lt, if_neg hik]
    exact h i hi

theorem OnlyEntry.clear (h : OnlyEntry addr m map k v) : NoEntry (m.write 8 (map + 8 * k) 0) map := by
  intro i hi
  rw [entryAt_write m map k 0 (by decide)]
  split
  · exact isValid_zero
  · exact h.rest i hi ‹_›

/-! ## `find_pgd_entry` and `find_pud_entry` -/

theorem findEntry_found (h : OnlyEntry pdeAddr M.mem map k v) (alloc : Bool) (attr : Nat) :
    findEntry L map k alloc attr M = .ok (v, M) := by
  simp only [findEntry, h.entry.valid, if_true, h.entry.addr]

theorem findEntry_none (h : NoEntry M.mem map) (hk : k < 512) (attr : Nat) :
    findEntry L map k false attr M = .ok (0, M) := by
  simp [findEntry, h k hk]

theorem findEntry_full (h : NoEntry M.mem map) (hk : k < 512) (hfree : FreeList M []) (attr : Nat) :
    findEntry L map k true attr M = .ok (0, M) := by
  simp [findEntry, h k hk, kalloc_nil hfree, pure, Except.pure]

/-- The lookup adds a table to an empty table. -/
theorem findEntry_new (h : NoEntry M.mem map) (hk : k < 512) (hfree : FreeList M (v :: xs))
    (hxs : ∀ w ∈ v :: xs, HeapPage L w) (hnodup : (v :: xs).Nodup) (hmap : HeapPage L map) (hnot : map ∉ v :: xs) :
    ∃ M', findEntry L map k true userAttribute M = .ok (v, M') ∧ FreeList M' xs ∧
      OnlyEntry pdeAddr M'.mem map k v ∧ NoEntry M'.mem v ∧ OnlyIn [v, map] M.mem M'.mem := by
  have hv := hxs v List.mem_cons_self
  obtain ⟨hvx, -⟩ := List.nodup_cons.mp hnodup
  obtain ⟨hmv, hmx⟩ : map ≠ v ∧ map ∉ xs := by simpa using hnot
  obtain ⟨halloc, hrest⟩ := kalloc_cons hfree hv
  have hsize : map + 8 * k + 8 ≤ map + pageSize := by rw [pageSize_eq]; omega
  have hfill : OnlyIn [v] M.mem (M.mem.fill v pageSize 0) := .fill le_rfl le_rfl
  have hset : OnlyIn [map] (M.mem.fill v pageSize 0)
      ((M.mem.fill v pageSize 0).write 8 (map + 8 * k) (v2p v ||| userAttribute ||| tableEntry)) :=
    .write (Nat.le_add_right _ _) hsize
  have hboth := hfill.trans hset
  have hpages : ∀ w ∈ [v] ++ [map], HeapPage L w := by
    intro w hw
    rcases List.mem_cons.mp hw with rfl | hw
    · exact hv
    · exact List.mem_singleton.mp hw ▸ hmap
  refine ⟨⟨(M.mem.fill v pageSize 0).write 8 (map + 8 * k) (v2p v ||| userAttribute ||| tableEntry),
    M.mem.read 8 v⟩, ?_, ?_, ?_, ?_, hboth⟩
  · simp only [findEntry, h k hk, if_false, if_true, halloc, ok_bind, ne_eq, hv.ne_zero, not_false_eq_true]
    rfl
  · refine hrest.onlyIn rfl hboth hpages (fun w hw => hxs w (List.mem_cons_of_mem v hw)) fun w hw => ?_
    rcases List.mem_cons.mp hw with rfl | hw
    · exact hvx
    · exact List.mem_singleton.mp hw ▸ hmx
  · have hsame := hfill.same (fun w hw => List.mem_singleton.mp hw ▸ hv) hmap (by simpa using hmv)
    exact (h.congr hsame).set hv.tableEntry
  · have hsame := hset.same (fun w hw => List.mem_singleton.mp hw ▸ hmap) hv (by simpa using Ne.symm hmv)
    exact (NoEntry.fill _ _).congr hsame

/-! ## `map_page` -/

/-- The page tables at `pgd`, with the tables `pud` and `pmd`, map the user page to `frame`. -/
structure AddrSpace (m : Mem) (pgd pud pmd frame : Nat) : Prop where
  pgd : OnlyEntry pdeAddr m pgd 0 pud
  pud : OnlyEntry pdeAddr m pud 0 pmd
  pmd : OnlyEntry pteAddr m pmd 2 frame

theorem AddrSpace.congr (h : AddrSpace m pgd pud pmd frame) (h₁ : Mem.Same m m' pgd pageSize)
    (h₂ : Mem.Same m m' pud pageSize) (h₃ : Mem.Same m m' pmd pageSize) : AddrSpace m' pgd pud pmd frame :=
  ⟨h.pgd.congr (by decide) h₁, h.pud.congr (by decide) h₂, h.pmd.congr (by decide) h₃⟩

theorem pgdIndex_userBase : pgdIndex userBase = 0 := by decide
theorem pudIndex_userBase : pudIndex userBase = 0 := by decide
theorem pmdIndex_userBase : pmdIndex userBase = 2 := by decide
theorem paDown_userBase : paDown userBase = userBase := by decide

theorem findPudEntry_found (h : AddrSpace M.mem pgd pud pmd frame) (hpud : HeapPage L pud) (alloc : Bool)
    (attr : Nat) : findPudEntry L pgd userBase alloc attr M = .ok (pmd, M) := by
  simp only [findPudEntry, findPgdEntry, pgdIndex_userBase, findEntry_found h.pgd, ok_bind, hpud.ne_zero, if_false,
    pudIndex_userBase]
  exact findEntry_found h.pud _ _

/-- The checks of `map_page` on its arguments. -/
theorem mapPage_unfold (hframe : HeapPage L frame) (attr : Nat) (M : Memory) :
    mapPage L map userBase (v2p frame) attr M = (do
      let (ptr, M) ← findPudEntry L map userBase true attr M
      if ptr = 0 then
        return (false, M)
      else
        ASSERT .mapPage (¬isValid (entryAt M.mem ptr 2))
        return (true, M.setEntry ptr 2 (v2p frame ||| attr ||| blockEntry))) := by
  have h₁ : (userBase + pageSize) % 2 ^ 64 < heapMemoryEnd := by decide
  have hphys : v2p frame % pageSize = 0 ∧ (v2p frame + pageSize) % 2 ^ 64 ≤ v2p heapMemoryEnd := by
    have hend : v2p heapMemoryEnd = 0x30000000 := by decide
    have hb := hframe.bounds
    have ha := hframe.aligned
    rw [hframe.v2p_eq, hend]
    simp only [kernelBase, pageSize] at *
    omega
  simp only [mapPage, paDown_userBase, ASSERT, require_of h₁, require_of hphys.1, require_of hphys.2, ok_bind,
    pmdIndex_userBase]

/-- `map_page` uses two free pages. -/
theorem mapPage_spec (h : NoEntry M.mem pgd) (hfree : FreeList M (pud :: pmd :: xs))
    (hxs : ∀ w ∈ pud :: pmd :: xs, HeapPage L w) (hnodup : (pud :: pmd :: xs).Nodup) (hpgd : HeapPage L pgd)
    (hnot : pgd ∉ pud :: pmd :: xs) (hframe : HeapPage L frame) :
    ∃ M', mapPage L pgd userBase (v2p frame) userAttribute M = .ok (true, M') ∧ FreeList M' xs ∧
      AddrSpace M'.mem pgd pud pmd frame ∧ OnlyIn [pgd, pud, pmd] M.mem M'.mem := by
  have hpud := hxs pud (by simp)
  have hpmd := hxs pmd (by simp)
  have hxs' : ∀ w ∈ pmd :: xs, HeapPage L w := fun w hw => hxs w (List.mem_cons_of_mem _ hw)
  simp only [List.nodup_cons, List.mem_cons, not_or] at hnodup hnot
  obtain ⟨⟨hpp, hpx⟩, hmx, hx⟩ := hnodup
  obtain ⟨M₁, hrun₁, hfree₁, hpgd₁, hpud₁, honly₁⟩ := findEntry_new (k := 0) h (by decide) hfree hxs
    (by simp [hpp, hpx, hmx, hx]) hpgd (by simp [hnot])
  obtain ⟨M₂, hrun₂, hfree₂, hpud₂, hpmd₂, honly₂⟩ := findEntry_new (k := 0) hpud₁ (by decide) hfree₁ hxs'
    (by simp [hmx, hx]) hpud (by simp [hpp, hpx])
  have hfind : findPudEntry L pgd userBase true userAttribute M = .ok (pmd, M₂) := by
    simp only [findPudEntry, findPgdEntry, pgdIndex_userBase, hrun₁, ok_bind, hpud.ne_zero, if_false,
      pudIndex_userBase]
    exact hrun₂
  have hset : OnlyIn [pmd] M₂.mem (M₂.setEntry pmd 2 (v2p frame ||| userAttribute ||| blockEntry)).mem :=
    .write (Nat.le_add_right _ _) (by rw [pageSize_eq]; omega)
  have hpmd' : ∀ w ∈ [pmd], HeapPage L w := fun w hw => List.mem_singleton.mp hw ▸ hpmd
  refine ⟨M₂.setEntry pmd 2 (v2p frame ||| userAttribute ||| blockEntry), ?_, ?_, ⟨?_, ?_, ?_⟩, ?_⟩
  · have hassert : ¬isValid (entryAt M₂.mem pmd 2) := hpmd₂ 2 (by decide)
    simp only [mapPage_unfold hframe, hfind, ok_bind, hpmd.ne_zero, if_false, ASSERT, require_of hassert]
    rfl
  · exact hfree₂.onlyIn rfl hset hpmd' (fun w hw => hxs w (by simp [hw])) (by simpa using hmx)
  · have hsame₂ := honly₂.same (L := L) (w := pgd) (by simp [hpmd, hpud]) hpgd (by simp [hnot])
    have hsame₃ := hset.same hpmd' hpgd (by simp [hnot])
    exact hpgd₁.congr (by decide) (hsame₂.trans hsame₃)
  · exact hpud₂.congr (by decide) (hset.same hpmd' hpud (by simpa using hpp))
  · exact hpmd₂.set hframe.blockEntry
  · refine ((honly₁.trans honly₂).trans hset).weaken fun w hw => ?_
    simp only [List.cons_append, List.nil_append, List.mem_cons, List.not_mem_nil, or_false] at hw ⊢
    tauto

/-- Without two free pages `map_page` fails. -/
theorem mapPage_true (h : NoEntry M.mem pgd) (hfree : FreeList M xs) (hxs : ∀ w ∈ xs, HeapPage L w)
    (hnodup : xs.Nodup) (hpgd : HeapPage L pgd) (hnot : pgd ∉ xs) (hframe : HeapPage L frame)
    (hrun : mapPage L pgd userBase (v2p frame) userAttribute M = .ok (true, M')) :
    ∃ pud pmd ys, xs = pud :: pmd :: ys := by
  rw [mapPage_unfold hframe] at hrun
  cases xs with
  | nil =>
      simp only [findPudEntry, findPgdEntry, pgdIndex_userBase, findEntry_full h (by decide : 0 < 512) hfree] at hrun
      cases hrun
  | cons pud xs =>
      cases xs with
      | nil =>
          obtain ⟨M₁, hrun₁, hfree₁, -, hpud₁, -⟩ := findEntry_new (k := 0) h (by decide) hfree hxs hnodup hpgd hnot
          simp only [findPudEntry, findPgdEntry, pgdIndex_userBase, hrun₁, ok_bind,
            (hxs pud (by simp)).ne_zero, if_false, pudIndex_userBase,
            findEntry_full hpud₁ (by decide : 0 < 512) hfree₁] at hrun
          cases hrun
      | cons pmd ys => exact ⟨pud, pmd, ys, rfl⟩

end ArmOs
