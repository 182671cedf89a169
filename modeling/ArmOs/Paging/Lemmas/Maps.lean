import ArmOs.Paging.Lemmas.Entries

/-!
# Page maps of any shape

The tables of a map are a trie of heap pages. A lookup that allocates hangs an empty table into it, which changes no
translation, and `map_page` then sets one entry of a middle table.
-/

namespace ArmOs

open Lib

variable {L : Layout} {M M' M'' : Memory} {m m' : Mem} {pgd map ptr v w va va' pa attr e : Nat} {xs xs' xs'' vs : List Nat}
  {i j k : Fin 512} {s : List (Fin 512)}

/-- The page is the page directory, or an upper or a middle table of it. -/
abbrev IsTable (m : Mem) (pgd w : Nat) : Prop := Trie.Within (tableAt m) pgd 2 w

/-- The free list is `xs`. -/
structure FreeIs (L : Layout) (M : Memory) (xs : List Nat) : Prop where
  list : FreeList M xs
  pages : ∀ w ∈ xs, HeapPage L w
  nodup : xs.Nodup

/-- The tables of the map are different heap pages, and none of them is free. -/
structure PageMap (L : Layout) (M : Memory) (xs : List Nat) (pgd : Nat) : Prop where
  pages : ∀ w, IsTable M.mem pgd w → HeapPage L w
  distinct : Trie.IsTree (tableAt M.mem) pgd 2
  notFree : ∀ w, IsTable M.mem pgd w → w ∉ xs

/-- The pages that a lookup may write. -/
def MayWrite (M : Memory) (xs : List Nat) (pgd w : Nat) : Prop := w ∈ xs ∨ IsTable M.mem pgd w

theorem IsTable.root (m : Mem) (pgd : Nat) : IsTable m pgd pgd := ⟨[], Nat.zero_le 2, rfl⟩

theorem IsTable.path {s : List (Fin 512)} (hs : s.length ≤ 2) (h : Trie.find (tableAt m) pgd s = some w) :
    IsTable m pgd w := ⟨s, hs, h⟩

/-! ## Entries of the pages that are written -/

theorem entryAt_set (he : e < 256 ^ 8) (hw : w = map → i ≠ k) (hmap : HeapPage L map) (hpage : HeapPage L w) :
    entryAt (m.write 8 (map + 8 * k) e) w i = entryAt m w i := by
  by_cases heq : w = map
  · subst heq
    rw [entryAt_write m w k e he, if_neg fun h => hw rfl (Fin.ext h)]
  · have honly : OnlyIn [map] m (m.write 8 (map + 8 * k) e) :=
      .write (Nat.le_add_right _ _) (by rw [pageSize_eq]; omega)
    exact entryAt_same (honly.same (by simpa using hmap) hpage (by simpa using heq)) i.isLt

theorem entryAt_clear (hv : HeapPage L v) (hpage : HeapPage L w) (hne : w ≠ v) :
    entryAt (m.fill v pageSize 0) w i = entryAt m w i := by
  have honly : OnlyIn [v] m (m.fill v pageSize 0) := .fill (Nat.le_refl _) (Nat.le_refl _)
  exact entryAt_same (honly.same (by simpa using hv) hpage (by simpa using hne)) i.isLt

/-- The memory after the page `v` is cleared and hung into the table at `map`. -/
def hang (m : Mem) (map k v attr : Nat) : Mem :=
  (m.fill v pageSize 0).write 8 (map + 8 * k) (v2p v ||| attr ||| tableEntry)

theorem entryAt_hang (hv : HeapPage L v) (hmap : HeapPage L map) (ha : attr < 2 ^ 12) (hvalid : isValid attr)
    (hpage : HeapPage L w) (hwv : w ≠ v) (hw : w = map → i ≠ k) :
    entryAt (hang m map k v attr) w i = entryAt m w i := by
  rw [hang, entryAt_set (hv.encodesTable ha hvalid).lt hw hmap hpage, entryAt_clear hv hpage hwv]

theorem hang_onlyIn (m : Mem) (map : Nat) (k : Fin 512) (v attr : Nat) : OnlyIn [v, map] m (hang m map k v attr) := by
  have hsize : map + 8 * k + 8 ≤ map + pageSize := by
    rw [pageSize_eq]
    omega
  have hfill : OnlyIn [v] m (m.fill v pageSize 0) := .fill (Nat.le_refl _) (Nat.le_refl _)
  exact hfill.trans (.write (Nat.le_add_right _ _) hsize)

section

variable (hv : HeapPage L v) (hmap : HeapPage L map) (hne : map ≠ v) (ha : attr < 2 ^ 12) (hvalid : isValid attr)

include hv hmap hne ha hvalid

theorem entryAt_hang_leaf : entryAt (hang m map k v attr) v i = 0 := by
  rw [hang, entryAt_set (hv.encodesTable ha hvalid).lt (fun h => absurd h.symm hne) hmap hv]
  exact entryAt_fill m v i.isLt

theorem hang_hangs : Trie.Hangs (HeapPage L) (tableAt m) (tableAt (hang m map k v attr)) map k v where
  new := by
    have hentry : Encodes (entryAt (hang m map k v attr) map k) (v2p v) := by
      rw [hang, entryAt_write _ map k _ (hv.encodesTable ha hvalid).lt, if_pos rfl]
      exact hv.encodesTable ha hvalid
    exact tableAt_encodes hv hentry
  rest w i hw hwv hwm := tableAt_congr (entryAt_hang hv hmap ha hvalid hw hwv hwm)
  leaf i := by
    rw [tableAt, entryAt_hang_leaf hv hmap hne ha hvalid]
    exact if_neg isValid_zero

end

/-! ## A step of a lookup -/

/-- What a lookup in the map at `pgd` keeps, and what it may write. -/
structure Extends (L : Layout) (pgd : Nat) (M : Memory) (xs : List Nat) (M' : Memory) (xs' : List Nat) : Prop where
  free : FreeIs L M' xs'
  map : PageMap L M' xs' pgd
  walks : ∀ va, walk M'.mem (v2p pgd) va = walk M.mem (v2p pgd) va
  only : ∃ vs, OnlyIn vs M.mem M'.mem ∧ ∀ w ∈ vs, MayWrite M xs pgd w
  mayWrite : ∀ w, MayWrite M' xs' pgd w → MayWrite M xs pgd w

theorem Extends.refl (hfree : FreeIs L M xs) (h : PageMap L M xs pgd) : Extends L pgd M xs M xs :=
  ⟨hfree, h, fun _ => rfl, ⟨[], .refl _ _, nofun⟩, fun _ => id⟩

theorem Extends.trans (h : Extends L pgd M xs M' xs') (h' : Extends L pgd M' xs' M'' xs'') :
    Extends L pgd M xs M'' xs'' where
  free := h'.free
  map := h'.map
  walks va := (h'.walks va).trans (h.walks va)
  only := by
    obtain ⟨vs, honly, hvs⟩ := h.only
    obtain ⟨vs', honly', hvs'⟩ := h'.only
    refine ⟨vs ++ vs', honly.trans honly', fun w hw => ?_⟩
    cases List.mem_append.mp hw with
    | inl hw => exact hvs w hw
    | inr hw => exact h.mayWrite w (hvs' w hw)
  mayWrite w hw := h.mayWrite w (h'.mayWrite w hw)

theorem PageMap.hang_extends (h : PageMap L M (v :: xs) pgd) (hfree : FreeIs L M (v :: xs))
    (hs : Trie.find (tableAt M.mem) pgd s = some map) (hlen : s.length < 2) (hnone : tableAt M.mem map k = none)
    (ha : attr < 2 ^ 12) (hvalid : isValid attr) :
    Extends L pgd M (v :: xs) { mem := hang M.mem map k v attr, freeMemory := M.mem.read 8 v } xs ∧
      Trie.find (tableAt (hang M.mem map k v attr)) pgd (s ++ [k]) = some v := by
  have htable : IsTable M.mem pgd map := .path (by omega) hs
  have hv := hfree.pages v List.mem_cons_self
  have hmap := h.pages map htable
  have hfresh : ¬IsTable M.mem pgd v := fun hin => h.notFree v hin List.mem_cons_self
  have hne : map ≠ v := by
    rintro rfl
    exact hfresh htable
  obtain ⟨hnodup, hnodup'⟩ := List.nodup_cons.mp hfree.nodup
  have hhangs := hang_hangs (m := M.mem) (k := k) hv hmap hne ha hvalid
  have hfind : ∀ ks : List (Fin 512), ks.length ≤ 2 → Trie.find (tableAt (hang M.mem map k v attr)) pgd ks =
      if ks = s ++ [k] then some v else Trie.find (tableAt M.mem) pgd ks := fun ks hks =>
    hhangs.find_eq h.pages h.distinct hfresh hs hnone hlen hks
  have honly := hang_onlyIn M.mem map k v attr
  have hwithin : ∀ w, IsTable (hang M.mem map k v attr) pgd w → w = v ∨ IsTable M.mem pgd w := fun w hw =>
    hhangs.within h.pages h.distinct hfresh hs hnone hlen hw
  have hxs : ∀ w ∈ xs, HeapPage L w := fun w hw => hfree.pages w (List.mem_cons_of_mem v hw)
  obtain ⟨-, hrest⟩ := kalloc_cons hfree.list hv
  refine ⟨⟨⟨?_, hxs, hnodup'⟩, ⟨?_, ?_, ?_⟩, ?_, ⟨_, honly, ?_⟩, ?_⟩, ?_⟩
  · refine hrest.onlyIn (L := L) rfl honly (by simp [hv, hmap]) hxs ?_
    simp only [List.forall_mem_cons]
    exact ⟨hnodup, fun hin => h.notFree map htable (List.mem_cons_of_mem v hin), List.forall_mem_nil _⟩
  · intro w hw
    rcases hwithin w hw with rfl | hw
    · exact hv
    · exact h.pages w hw
  · exact hhangs.isTree h.pages h.distinct hfresh hs hnone hlen
  · intro w hw
    rcases hwithin w hw with rfl | hw
    · exact hnodup
    · exact fun hin => h.notFree w hw (List.mem_cons_of_mem v hin)
  · intro va
    have hpgd := (h.pages pgd (.root _ _)).p2v_v2p
    rw [walk_eq, walk_eq, hpgd, hfind (tablePath va) (tablePath_le va)]
    split
    · split
      · rename_i hpath
        have hgone : Trie.find (tableAt M.mem) pgd (tablePath va) = none := by
          rw [hpath, Trie.find_concat, hs]
          exact hnone
        rw [hgone, Option.bind_some, Option.bind_none, blockAt, entryAt_hang_leaf hv hmap hne ha hvalid,
          if_neg isValid_zero]
      · refine Option.bind_congr fun w hfound => ?_
        have hw : IsTable M.mem pgd w := .path (tablePath_le va) hfound
        have hwv : w ≠ v := by
          rintro rfl
          exact hfresh hw
        have hwm : w ≠ map := by
          rintro rfl
          have hsame := h.distinct (tablePath va) s (tablePath_le va) hlen.le w hfound hs
          rw [← hsame, length_tablePath] at hlen
          exact absurd hlen (Nat.lt_irrefl 2)
        exact blockAt_congr (entryAt_hang hv hmap ha hvalid (h.pages w hw) hwv fun heq => absurd heq hwm)
    · rfl
  · simp only [List.forall_mem_cons]
    exact ⟨.inl List.mem_cons_self, .inr htable, List.forall_mem_nil _⟩
  · rintro w (hw | hw)
    · exact .inl (List.mem_cons_of_mem v hw)
    · rcases hwithin w hw with rfl | hw
      · exact .inl List.mem_cons_self
      · exact .inr hw
  · rw [hfind _ (by simp; omega), if_pos rfl]

/-- A lookup that allocates, in the table at the end of the path `s`. Without a free page it fails. -/
theorem PageMap.findEntry_spec (h : PageMap L M xs pgd) (hfree : FreeIs L M xs)
    (hs : Trie.find (tableAt M.mem) pgd s = some map) (hlen : s.length < 2) (ha : attr < 2 ^ 12) (hvalid : isValid attr)
    (k : Fin 512) : ∃ ptr M' xs', findEntry L map k true attr M = .ok (ptr, M') ∧ Extends L pgd M xs M' xs' ∧
      xs.length ≤ xs'.length + 1 ∧ (ptr = 0 ∧ xs = [] ∨ Trie.find (tableAt M'.mem) pgd (s ++ [k]) = some ptr) := by
  by_cases hentry : isValid (entryAt M.mem map k)
  · have htable : tableAt M.mem map k = some (p2v (pdeAddr (entryAt M.mem map k))) := if_pos hentry
    refine ⟨_, M, xs, if_pos hentry, .refl hfree h, Nat.le_succ _, .inr ?_⟩
    rw [Trie.find_concat, hs]
    exact htable
  · have hnone : tableAt M.mem map k = none := if_neg hentry
    cases xs with
    | nil =>
        refine ⟨0, M, [], ?_, .refl hfree h, Nat.le_succ _, .inl ⟨rfl, rfl⟩⟩
        simp [findEntry, hentry, kalloc_nil hfree.list, pure, Except.pure]
    | cons v xs =>
        have hv := hfree.pages v List.mem_cons_self
        obtain ⟨halloc, -⟩ := kalloc_cons hfree.list hv
        obtain ⟨hextends, hnew⟩ := h.hang_extends hfree hs hlen hnone ha hvalid
        refine ⟨v, _, xs, ?_, hextends, Nat.le_refl _, .inr hnew⟩
        simp only [findEntry, hentry, if_false, if_true, halloc, ok_bind, ne_eq, hv.ne_zero, not_false_eq_true]
        rfl

theorem PageMap.ne_zero (h : PageMap L M xs pgd) (hs : s.length ≤ 2) (hptr : Trie.find (tableAt M.mem) pgd s = some ptr) :
    ptr ≠ 0 := (h.pages ptr (.path hs hptr)).ne_zero

/-- Both lookups. When one of them fails there was at most one free page. -/
theorem PageMap.findPudEntry_spec (h : PageMap L M xs pgd) (hfree : FreeIs L M xs) (ha : attr < 2 ^ 12)
    (hvalid : isValid attr) (va : Nat) : ∃ ptr M' xs', findPudEntry L pgd va true attr M = .ok (ptr, M') ∧
      Extends L pgd M xs M' xs' ∧
      (ptr = 0 ∧ xs.length < 2 ∨ Trie.find (tableAt M'.mem) pgd (tablePath va) = some ptr) := by
  obtain ⟨pud, M₁, xs₁, hrun, hext, hlength, hpud⟩ :=
    h.findEntry_spec hfree Trie.find_nil (by decide) ha hvalid ⟨pgdIndex va, index_lt _⟩
  unfold findPudEntry findPgdEntry
  rw [hrun, ok_bind]
  rcases hpud with ⟨rfl, hnil⟩ | hpud
  · refine ⟨0, M₁, xs₁, rfl, hext, .inl ⟨rfl, ?_⟩⟩
    rw [hnil]
    exact Nat.zero_lt_two
  · have hne := hext.map.ne_zero (s := [⟨pgdIndex va, index_lt _⟩]) (Nat.le_succ 1) hpud
    obtain ⟨pmd, M₂, xs₂, hrun', hext', -, hpmd⟩ :=
      hext.map.findEntry_spec hext.free hpud (Nat.lt_succ_self 1) ha hvalid ⟨pudIndex va, index_lt _⟩
    simp only [if_neg hne]
    refine ⟨pmd, M₂, xs₂, hrun', hext.trans hext', ?_⟩
    rcases hpmd with ⟨hzero, hnil⟩ | hpmd
    · rw [hnil] at hlength
      exact .inl ⟨hzero, Nat.lt_succ_of_le hlength⟩
    · exact .inr hpmd

/-! ## The entry of the block -/

/-- Setting an entry of the middle table of `va` changes the translation of the block of `va` only. -/
theorem PageMap.setBlock (h : PageMap L M xs pgd) (hfree : FreeIs L M xs) (hva : va < 2 ^ 48)
    (hptr : Trie.find (tableAt M.mem) pgd (tablePath va) = some ptr) (he : Encodes e pa) :
    FreeIs L (M.setEntry ptr (blockIndex va) e) xs ∧ PageMap L (M.setEntry ptr (blockIndex va) e) xs pgd ∧
      OnlyIn [ptr] M.mem (M.setEntry ptr (blockIndex va) e).mem ∧
      ∀ va', walk (M.setEntry ptr (blockIndex va) e).mem (v2p pgd) va' =
        if va' < 2 ^ 48 ∧ va' / pageSize = va / pageSize then some pa else walk M.mem (v2p pgd) va' := by
  have htable : IsTable M.mem pgd ptr := .path (tablePath_le va) hptr
  have hpage := h.pages ptr htable
  have hsize : ptr + 8 * blockIndex va + 8 ≤ ptr + pageSize := by
    rw [pageSize_eq]
    omega
  have honly : OnlyIn [ptr] M.mem (M.setEntry ptr (blockIndex va) e).mem := .write (Nat.le_add_right _ _) hsize
  -- the upper tables are as before
  have hupper : ∀ w, Trie.Within (tableAt M.mem) pgd 1 w → ∀ i, tableAt (M.setEntry ptr (blockIndex va) e).mem w i =
      tableAt M.mem w i := by
    rintro w ⟨ks, hks, hw⟩ i
    have hne : w ≠ ptr := by
      rintro rfl
      have hsame := h.distinct ks (tablePath va) (Nat.le_succ_of_le hks) (tablePath_le va) w hw hptr
      rw [hsame, length_tablePath] at hks
      exact absurd hks (by decide)
    refine tableAt_congr (entryAt_same (honly.same (by simpa using hpage) (h.pages w ⟨ks, by omega, hw⟩) ?_) i.isLt)
    simpa using hne
  have hfind : ∀ ks : List (Fin 512), ks.length ≤ 2 →
      Trie.find (tableAt (M.setEntry ptr (blockIndex va) e).mem) pgd ks = Trie.find (tableAt M.mem) pgd ks :=
    fun ks hks => Trie.find_congr hupper hks
  have hwithin : ∀ w, IsTable (M.setEntry ptr (blockIndex va) e).mem pgd w → IsTable M.mem pgd w := by
    rintro w ⟨ks, hks, hw⟩
    rw [hfind ks hks] at hw
    exact ⟨ks, hks, hw⟩
  refine ⟨⟨?_, hfree.pages, hfree.nodup⟩, ⟨fun w hw => h.pages w (hwithin w hw), ?_, fun w hw => h.notFree w (hwithin w hw)⟩,
    honly, fun va' => ?_⟩
  · exact hfree.list.onlyIn (L := L) rfl honly (by simpa using hpage) hfree.pages (by simpa using h.notFree ptr htable)
  · intro ks js hks hjs w hw hw'
    rw [hfind ks hks] at hw
    rw [hfind js hjs] at hw'
    exact h.distinct ks js hks hjs w hw hw'
  · have hpgd := (h.pages pgd (.root _ _)).p2v_v2p
    rw [walk_eq, walk_eq, hpgd, hfind (tablePath va') (tablePath_le va')]
    by_cases hva' : va' < 2 ^ 48
    · rw [if_pos hva', if_pos hva']
      by_cases hblock : va' / pageSize = va / pageSize
      · obtain ⟨hpath, hindex⟩ := (sameBlock_iff hva hva').mpr hblock
        rw [if_pos ⟨hva', hblock⟩, hpath, hindex, hptr, Option.bind_some]
        refine blockAt_encodes ?_
        show Encodes (entryAt (M.mem.write 8 _ e) _ _) pa
        rw [entryAt_write _ _ _ _ he.lt, if_pos rfl]
        exact he
      · rw [if_neg fun hin => hblock hin.2]
        refine Option.bind_congr fun w hfound => ?_
        have hw : IsTable M.mem pgd w := .path (tablePath_le va') hfound
        refine blockAt_congr (entryAt_set he.lt ?_ hpage (h.pages w hw))
        rintro rfl hindex
        have hpath := h.distinct _ _ (tablePath_le va') (tablePath_le va) w hfound hptr
        exact hblock ((sameBlock_iff hva hva').mp ⟨hpath, hindex⟩)
    · rw [if_neg hva', if_neg hva', if_neg fun hin => hva' hin.1]

/-! ## Other maps -/

/-- A map whose tables are not written stays a map, and translates as before. -/
theorem PageMap.frame {pgd' : Nat} (h : PageMap L M xs pgd) (hfree : FreeIs L M xs) (h' : PageMap L M xs pgd')
    (hdisjoint : ∀ w, IsTable M.mem pgd w → ¬IsTable M.mem pgd' w)
    (honly : OnlyIn vs M.mem M'.mem) (hvs : ∀ w ∈ vs, MayWrite M xs pgd w) (hxs : ∀ w ∈ xs', MayWrite M xs pgd w) :
    PageMap L M' xs' pgd' ∧ ∀ va, walk M'.mem (v2p pgd') va = walk M.mem (v2p pgd') va := by
  have hother : ∀ w, IsTable M.mem pgd' w → ¬MayWrite M xs pgd w := by
    rintro w hw (hin | hin)
    · exact h'.notFree w hw hin
    · exact hdisjoint w hin hw
  have hpages : ∀ w ∈ vs, HeapPage L w := by
    intro w hw
    cases hvs w hw with
    | inl hin => exact hfree.pages w hin
    | inr hin => exact h.pages w hin
  have hentry : ∀ w, IsTable M.mem pgd' w → ∀ i : Fin 512, entryAt M'.mem w i = entryAt M.mem w i := fun w hw i =>
    entryAt_same (honly.same hpages (h'.pages w hw) fun hin => hother w hw (hvs w hin)) i.isLt
  have hfind : ∀ ks : List (Fin 512), ks.length ≤ 2 →
      Trie.find (tableAt M'.mem) pgd' ks = Trie.find (tableAt M.mem) pgd' ks := fun ks hks =>
    Trie.find_congr (d := 1) (fun w ⟨js, hjs, hw⟩ i => tableAt_congr (hentry w ⟨js, by omega, hw⟩ i)) hks
  have hwithin : ∀ w, IsTable M'.mem pgd' w → IsTable M.mem pgd' w := by
    rintro w ⟨ks, hks, hw⟩
    rw [hfind ks hks] at hw
    exact ⟨ks, hks, hw⟩
  refine ⟨⟨fun w hw => h'.pages w (hwithin w hw), ?_, fun w hw hin => hother w (hwithin w hw) (hxs w hin)⟩, fun va => ?_⟩
  · intro ks js hks hjs w hw hw'
    rw [hfind ks hks] at hw
    rw [hfind js hjs] at hw'
    exact h'.distinct ks js hks hjs w hw hw'
  · have hpgd := (h'.pages pgd' (.root _ _)).p2v_v2p
    rw [walk_eq, walk_eq, hpgd, hfind (tablePath va) (tablePath_le va)]
    split
    · exact Option.bind_congr fun w hfound => blockAt_congr (hentry w (.path (tablePath_le va) hfound) _)
    · rfl

end ArmOs
