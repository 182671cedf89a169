import ArmOs.Paging.Lemmas.Cleanup
import ArmOs.Exec.Theorems

/-!
# `map_page`, and failed address spaces
-/

namespace ArmOs

open Lib

variable {L : Layout} {M M' : Memory} {pgd va pa attr : Nat} {xs : List Nat} {b : Bool}

/-- The physical address that the tables at `ttbr0` give to the address `va`. -/
def translate (m : Mem) (ttbr0 va : Nat) : Option Nat := (walk m ttbr0 va).map fun block => block + va % pageSize

/-- What a call of `map_page` does to the translations: `b` is what it returns. -/
structure MapsPage (L : Layout) (pgd va pa : Nat) (M : Memory) (xs : List Nat) (b : Bool) (M' : Memory) (xs' : List Nat) :
    Prop where
  free : FreeIs L M' xs'
  map : PageMap L M' xs' pgd
  full : b = false → xs.length < 2
  block : b = true → ∀ va' < 2 ^ 48, va' / pageSize = va / pageSize →
    translate M'.mem (v2p pgd) va' = some (pa + va' % pageSize)
  rest : ∀ va', (b = true → va' < 2 ^ 48 → va' / pageSize ≠ va / pageSize) →
    translate M'.mem (v2p pgd) va' = translate M.mem (v2p pgd) va'
  other : ∀ pgd', PageMap L M xs pgd' → (∀ w, IsTable M.mem pgd w → ¬IsTable M.mem pgd' w) →
    PageMap L M' xs' pgd' ∧ ∀ va', translate M'.mem (v2p pgd') va' = translate M.mem (v2p pgd') va'

theorem translate_eq_none (m : Mem) (ttbr0 va : Nat) : translate m ttbr0 va = none ↔ walk m ttbr0 va = none :=
  Option.map_eq_none_iff

theorem translate_congr {m m' : Mem} {ttbr0 : Nat} (h : walk m' ttbr0 va = walk m ttbr0 va) :
    translate m' ttbr0 va = translate m ttbr0 va := by
  unfold translate
  rw [h]

/-- `map_page` sets the entry of the block in the middle table that the lookup finds. -/
theorem Extends.mapsPage {M₁ : Memory} {xs₁ : List Nat} {ptr : Nat} (h : PageMap L M xs pgd) (hfree : FreeIs L M xs)
    (hext : Extends L pgd M xs M₁ xs₁) (hva : va < 2 ^ 48)
    (hptr : Trie.find (tableAt M₁.mem) pgd (tablePath va) = some ptr) (hpa : BlockAddr pa) (ha : attr < 2 ^ 12)
    (hvalid : isValid attr) :
    MapsPage L pgd va pa M xs true (M₁.setEntry ptr (pmdIndex va) (pa ||| attr ||| blockEntry)) xs₁ := by
  obtain ⟨hfree', hmap, honly, hwalk⟩ := hext.map.setBlock hext.free hva hptr (hpa.encodesBlock ha hvalid)
  obtain ⟨vs, honly', hvs⟩ := hext.only
  have hall : ∀ w ∈ vs ++ [ptr], MayWrite M xs pgd w := by
    intro w hw
    cases List.mem_append.mp hw with
    | inl hw => exact hvs w hw
    | inr hw =>
        rw [List.mem_singleton.mp hw]
        exact hext.mayWrite ptr (.inr (.path (tablePath_le va) hptr))
  refine ⟨hfree', hmap, nofun, fun _ va' hva' hblock => ?_, fun va' hother => ?_, fun pgd' h' hdisjoint => ?_⟩
  · rw [translate]
    show (walk (M₁.setEntry ptr (blockIndex va) _).mem (v2p pgd) va').map _ = _
    rw [hwalk va', if_pos ⟨hva', hblock⟩]
    rfl
  · refine translate_congr ?_
    show walk (M₁.setEntry ptr (blockIndex va) _).mem (v2p pgd) va' = _
    rw [hwalk va', if_neg fun hin => hother rfl hin.1 hin.2, hext.walks]
  · obtain ⟨hkeeps, hwalks⟩ := h.frame hfree h' hdisjoint (honly'.trans honly) hall fun w hw => hext.mayWrite w (.inl hw)
    exact ⟨hkeeps, fun va' => translate_congr (hwalks va')⟩

/-- A lookup that fails leaves the translations as they are. -/
theorem Extends.mapsNothing {M₁ : Memory} {xs₁ : List Nat} (h : PageMap L M xs pgd) (hfree : FreeIs L M xs)
    (hext : Extends L pgd M xs M₁ xs₁) (hfull : xs.length < 2) : MapsPage L pgd va pa M xs false M₁ xs₁ := by
  obtain ⟨vs, honly, hvs⟩ := hext.only
  refine ⟨hext.free, hext.map, fun _ => hfull, nofun, fun va' _ => translate_congr (hext.walks va'),
    fun pgd' h' hdisjoint => ?_⟩
  obtain ⟨hkeeps, hwalks⟩ := h.frame hfree h' hdisjoint honly hvs fun w hw => hext.mayWrite w (.inl hw)
  exact ⟨hkeeps, fun va' => translate_congr (hwalks va')⟩

/-- On an address that is not mapped `map_page` returns: with the entry set in the table that the lookup finds, or
without pages for such a table. -/
theorem PageMap.mapPage_run (h : PageMap L M xs pgd) (hfree : FreeIs L M xs) (hva : va < 2 ^ 48)
    (hnot : translate M.mem (v2p pgd) va = none) (hpa : BlockAddr pa) (ha : attr < 2 ^ 12) (hvalid : isValid attr) :
    ∃ M₁ xs₁, Extends L pgd M xs M₁ xs₁ ∧
      (xs.length < 2 ∧ mapPage L pgd va pa attr M = .ok (false, M₁) ∨
        ∃ ptr, Trie.find (tableAt M₁.mem) pgd (tablePath va) = some ptr ∧ mapPage L pgd va pa attr M =
          .ok (true, M₁.setEntry ptr (pmdIndex va) (pa ||| attr ||| blockEntry))) := by
  have hstart : (paDown va + pageSize) % 2 ^ 64 < heapMemoryEnd := by
    have hend := heapMemoryEnd_eq
    rw [paDown_eq, hend, pageSize_eq, kernelBase]
    omega
  have hend : (pa + pageSize) % 2 ^ 64 ≤ v2p heapMemoryEnd := (Nat.mod_le _ _).trans hpa.end
  obtain ⟨ptr, M₁, xs₁, hrun, hext, hresult⟩ := h.findPudEntry_spec hfree ha hvalid (paDown va)
  simp only [mapPage, ASSERT, require_of hstart, require_of hpa.aligned, require_of hend, ok_bind, hrun]
  rcases hresult with ⟨rfl, hfull⟩ | hptr
  · exact ⟨M₁, xs₁, hext, .inl ⟨hfull, rfl⟩⟩
  · have hne := hext.map.ne_zero (tablePath_le (paDown va)) hptr
    rw [tablePath_paDown] at hptr
    have hassert : ¬isValid (entryAt M₁.mem ptr (pmdIndex va)) := by
      intro hmapped
      have hmapped : isValid (entryAt M₁.mem ptr (blockIndex va)) := hmapped
      have hpgd := (hext.map.pages pgd (.root _ _)).p2v_v2p
      have hwalk := (hext.walks va).trans ((translate_eq_none _ _ _).mp hnot)
      rw [walk_eq, if_pos hva, hpgd, hptr, Option.bind_some, blockAt, if_pos hmapped] at hwalk
      cases hwalk
    rw [if_neg hne, pmdIndex_paDown, require_of hassert]
    exact ⟨M₁, xs₁, hext, .inr ⟨ptr, hptr, rfl⟩⟩

/-- `map_page` returns on an address that is not mapped, and maps its block or nothing. -/
theorem mapPage_translates (h : PageMap L M xs pgd) (hfree : FreeIs L M xs) (hva : va < 2 ^ 48)
    (hnot : translate M.mem (v2p pgd) va = none) (hpa : BlockAddr pa) (ha : attr < 2 ^ 12) (hvalid : isValid attr) :
    ∃ b M' xs', mapPage L pgd va pa attr M = .ok (b, M') ∧ MapsPage L pgd va pa M xs b M' xs' := by
  obtain ⟨M₁, xs₁, hext, hrun⟩ := h.mapPage_run hfree hva hnot hpa ha hvalid
  rcases hrun with ⟨hfull, hrun⟩ | ⟨ptr, hptr, hrun⟩
  · exact ⟨false, M₁, xs₁, hrun, hext.mapsNothing h hfree hfull⟩
  · exact ⟨true, _, xs₁, hrun, hext.mapsPage h hfree hva hptr hpa ha hvalid⟩

/-! ## The maps that `map_page` builds -/

/-- A page from `kalloc` that is cleared is a map without entries. -/
theorem PageMap.new (h : FreeIs L M (pgd :: xs)) :
    FreeIs L { mem := M.mem.fill pgd pageSize 0, freeMemory := M.mem.read 8 pgd } xs ∧
      PageMap L { mem := M.mem.fill pgd pageSize 0, freeMemory := M.mem.read 8 pgd } xs pgd ∧
      ∀ va, translate (M.mem.fill pgd pageSize 0) (v2p pgd) va = none := by
  have hpgd := h.pages pgd List.mem_cons_self
  have hxs : ∀ w ∈ xs, HeapPage L w := fun w hw => h.pages w (List.mem_cons_of_mem pgd hw)
  obtain ⟨hnot, hnodup⟩ := List.nodup_cons.mp h.nodup
  obtain ⟨-, hrest⟩ := kalloc_cons h.list hpgd
  have honly : OnlyIn [pgd] M.mem (M.mem.fill pgd pageSize 0) := .fill (Nat.le_refl _) (Nat.le_refl _)
  have hnone : ∀ i, tableAt (M.mem.fill pgd pageSize 0) pgd i = none := fun i => if_neg (NoEntry.fill _ _ i i.isLt)
  have hroot : ∀ ks : List (Fin 512), ∀ w, Trie.find (tableAt (M.mem.fill pgd pageSize 0)) pgd ks = some w →
      ks = [] ∧ w = pgd := by
    intro ks w hw
    cases ks with
    | nil => exact ⟨rfl, (Option.some.inj hw).symm⟩
    | cons k ks =>
        rw [Trie.find, hnone] at hw
        cases hw
  refine ⟨⟨?_, hxs, hnodup⟩, ⟨?_, ?_, ?_⟩, fun va => ?_⟩
  · exact hrest.onlyIn (L := L) rfl honly (by simpa using hpgd) hxs (by simpa using hnot)
  · rintro w ⟨ks, -, hw⟩
    rw [(hroot ks w hw).2]
    exact hpgd
  · intro ks js _ _ w hw hw'
    rw [(hroot ks w hw).1, (hroot js w hw').1]
  · rintro w ⟨ks, -, hw⟩
    rw [(hroot ks w hw).2]
    exact hnot
  · rw [translate_eq_none, walk_eq, hpgd.p2v_v2p]
    split
    · rw [tablePath, Trie.find, hnone]
      rfl
    · rfl

/-- The last three pages of the heap are free. -/
def threePages : Memory where
  mem := Mem.write (Mem.write (fun _ => 0) 8 (heapMemoryEnd - 3 * pageSize) (heapMemoryEnd - 2 * pageSize)) 8
    (heapMemoryEnd - 2 * pageSize) (heapMemoryEnd - pageSize)
  freeMemory := heapMemoryEnd - 3 * pageSize

theorem threePages_free : FreeIs smallLayout threePages
    [heapMemoryEnd - 3 * pageSize, heapMemoryEnd - 2 * pageSize, heapMemoryEnd - pageSize] where
  list := by decide
  pages := by
    simp only [List.forall_mem_cons]
    exact ⟨⟨by decide, by decide, by decide⟩, ⟨by decide, by decide, by decide⟩, ⟨by decide, by decide, by decide⟩, nofun⟩
  nodup := by decide

/-- The user page of a new map. -/
theorem mapPage_translates_new : ∃ M : Memory, ∃ b M' xs',
    mapPage smallLayout (heapMemoryEnd - 3 * pageSize) userBase (5 * pageSize) userAttribute M = .ok (b, M') ∧
    MapsPage smallLayout (heapMemoryEnd - 3 * pageSize) userBase (5 * pageSize) M
      [heapMemoryEnd - 2 * pageSize, heapMemoryEnd - pageSize] b M' xs' := by
  obtain ⟨hfree, hmap, hnone⟩ := PageMap.new threePages_free
  exact ⟨_, mapPage_translates hmap hfree (by decide) (hnone userBase) ⟨by decide, by decide⟩ (by decide) (by decide)⟩

/-- The map at `pgd` is built by calls of `map_page`, from a page that `kalloc` gave. -/
inductive Built (L : Layout) (pgd : Nat) : Memory → Prop
  | new {M : Memory} {xs : List Nat} (h : FreeIs L M (pgd :: xs)) :
      Built L pgd { mem := M.mem.fill pgd pageSize 0, freeMemory := M.mem.read 8 pgd }
  | mapPage {M M' : Memory} {va pa attr : Nat} {b : Bool} (h : Built L pgd M) (hva : va < 2 ^ 48)
      (hnot : translate M.mem (v2p pgd) va = none) (hpa : BlockAddr pa) (ha : attr < 2 ^ 12) (hvalid : isValid attr)
      (hrun : mapPage L pgd va pa attr M = .ok (b, M')) : Built L pgd M'

/-- Its tables are different pages, and they are not free. -/
theorem Built.pageMap (h : Built L pgd M) : ∃ xs, FreeIs L M xs ∧ PageMap L M xs pgd := by
  induction h with
  | new h =>
      obtain ⟨hfree, hmap, -⟩ := PageMap.new h
      exact ⟨_, hfree, hmap⟩
  | mapPage _ hva hnot hpa ha hvalid hrun ih =>
      obtain ⟨xs, hfree, hmap⟩ := ih
      obtain ⟨M₁, xs₁, hext, hresult⟩ := hmap.mapPage_run hfree hva hnot hpa ha hvalid
      rcases hresult with ⟨-, hrun'⟩ | ⟨ptr, hptr, hrun'⟩
      · cases hrun'.symm.trans hrun
        exact ⟨xs₁, hext.free, hext.map⟩
      · cases hrun'.symm.trans hrun
        have hmaps := hext.mapsPage hmap hfree hva hptr hpa ha hvalid
        exact ⟨xs₁, hmaps.free, hmaps.map⟩

/-! ## `setup_uvm` and `copy_uvm` that fail -/

/-- The slots of the process, the file descriptions and the counts of the files are as before. -/
structure FilesBack (p : Proc) (s t : Kernel) : Prop where
  slots : (t.proc p).file = (s.proc p).file
  descs : t.fs.fileDescTable = s.fs.fileDescTable
  counts : ∀ f, (t.fs.fcbTable f).count = (s.fs.fcbTable f).count

variable {s t : Kernel} {p : Proc} {name : Nat → UInt8} {map page pud pmd frame src size : Nat}

/-- Without a free page nothing is freed, not even the map. -/
theorem not_pagesBack_of_full (h : FreeIs L M []) (hmap : HeapPage L map) : ¬PagesBack map [] M := by
  rintro ⟨ys, hlist, hperm⟩
  rw [List.perm_singleton.mp hperm] at hlist
  exact hmap.ne_zero (hlist.1.symm.trans h.list)

namespace FreshMap

theorem setupUvm_full (h : FreshMap L s.memory (s.proc p).pageMap []) : setupUvm L p name s = .ok (false, s) := by
  simp [setupUvm, kalloc_nil h.free.list, pure, Except.pure]

theorem setupUvm_few (h : FreshMap L s.memory (s.proc p).pageMap (page :: xs)) (hfew : xs.length < 2) :
    ∃ N, setupUvm L p name s = .ok (false, { s with memory := N }) ∧ PagesBack (s.proc p).pageMap (page :: xs) N := by
  obtain ⟨M₁, M₂, N, halloc, hne, hmap, hkfree, hfree, hback⟩ := h.unmapped hfew
  unfold clearedPage at hmap
  refine ⟨N, ?_, hback⟩
  simp only [setupUvm, halloc, ok_bind, ne_eq, hne, not_false_eq_true, if_true, hmap, Bool.false_eq_true, if_false,
    hkfree, hfree]
  rfl

/-- The file is looked for in the same image. -/
theorem openRefuses_mapped {M : Memory} (hM : Mapped L s.memory M map pud pmd frame xs)
    (hpages : ∀ w ∈ [frame, map, pud, pmd], HeapPage L w) :
    OpenRefuses { s with memory := M } p name ↔ OpenRefuses s p name := by
  have habove := hM.only.above hpages
  rw [OpenRefuses, OpenRefuses, habove.searchFile name]

theorem mapPages (h : FreshMap L M map (frame :: pud :: pmd :: xs)) : ∀ w ∈ [frame, map, pud, pmd], HeapPage L w := by
  simp [h.page, h.free.pages frame, h.free.pages pud, h.free.pages pmd]

theorem setupUvm_refused (h : FreshMap L s.memory (s.proc p).pageMap (frame :: pud :: pmd :: xs))
    (hopen : OpenRefuses s p name) : ∃ N, setupUvm L p name s = .ok (false, { s with memory := N }) ∧
      PagesBack (s.proc p).pageMap (frame :: pud :: pmd :: xs) N := by
  obtain ⟨M, N, hM, hfree, hback⟩ := h.mapped
  have hfails : openFile p name { s with memory := M } = (-1, { s with memory := M }) := by
    obtain ⟨r, t, hrt⟩ : ∃ r t, openFile p name { s with memory := M } = (r, t) := ⟨_, _, Prod.mk.eta.symm⟩
    have hr := (openFile_fails_iff hrt).mpr ((openRefuses_mapped hM h.mapPages).mpr hopen)
    rcases openFile_opened hrt with ⟨-, ht⟩ | ⟨fd, d, i, hfd, -⟩
    · rw [hrt, hr, ht]
    · omega
  have hmap := hM.map
  unfold clearedPage at hmap
  refine ⟨N, ?_, hback⟩
  simp only [setupUvm, hM.alloc, ok_bind, ne_eq, (h.free.pages frame (by simp)).ne_zero, not_false_eq_true, if_true, hmap,
    hfails, hfree]
  rfl

/-- When the read comes up short, the file stays open. -/
theorem setupUvm_leaks (h : FreshMap L s.memory (s.proc p).pageMap (frame :: pud :: pmd :: xs))
    (hopen : ¬OpenRefuses s p name) (hrun : setupUvm L p name s = .ok (false, t)) :
    ∃ fd, (s.proc p).file fd = none ∧ (t.proc p).file fd ≠ none := by
  obtain ⟨M, N, hM, -, -⟩ := h.mapped
  obtain ⟨r, u, hru⟩ : ∃ r u, openFile p name { s with memory := M } = (r, u) := ⟨_, _, Prod.mk.eta.symm⟩
  have hr : r ≠ -1 := fun hr => hopen ((openRefuses_mapped hM h.mapPages).mp ((openFile_fails_iff hru).mp hr))
  have hmap := hM.map
  unfold clearedPage at hmap
  simp only [setupUvm, hM.alloc, ok_bind, ne_eq, (h.free.pages frame (by simp)).ne_zero, not_false_eq_true, if_true, hmap,
    hru, if_neg hr] at hrun
  obtain ⟨slot, d, hslot, -, -, -, rfl⟩ := openFile_ok hru hr
  obtain ⟨size, -, hrun⟩ := bind_eq_ok.mp hrun
  obtain ⟨⟨n, v⟩, hread, hrun⟩ := bind_eq_ok.mp hrun
  dsimp only at hrun
  split at hrun
  · obtain ⟨N', -, hrun⟩ := bind_eq_ok.mp hrun
    cases hrun
    obtain ⟨hfree, -⟩ := Fin.find?_eq_some_iff.mp hslot
    refine ⟨slot, by simpa using hfree, ?_⟩
    show (v.proc p).file slot ≠ none
    have hslot' := (opened_descriptor { s with memory := M } p slot d (searchFile M.mem name)).slot
    rw [fileSlot_val] at hslot'
    rw [(readFile_sameFiles hread).file p, Except.ok.inj hslot']
    nofun
  · obtain ⟨v', -, hrun⟩ := bind_eq_ok.mp hrun
    cases hrun

theorem copyUvm_full (h : FreshMap L M map []) : copyUvm L map src size M = .ok (false, M) := by
  simp [copyUvm, kalloc_nil h.free.list, pure, Except.pure]

theorem copyUvm_few (h : FreshMap L M map (page :: xs)) (hfew : xs.length < 2) :
    ∃ N, copyUvm L map src size M = .ok (false, N) ∧ PagesBack map (page :: xs) N := by
  obtain ⟨M₁, M₂, N, halloc, hne, hmap, hkfree, hfree, hback⟩ := h.unmapped hfew
  unfold clearedPage at hmap
  refine ⟨N, ?_, hback⟩
  simp only [copyUvm, halloc, ok_bind, ne_eq, hne, not_false_eq_true, if_true, hmap, Bool.false_eq_true, if_false,
    hkfree, hfree]
  rfl

/-- Once the user page is mapped, `copy_uvm` fails only if the source has no middle table. -/
theorem copyUvm_mapped (h : FreshMap L M map (frame :: pud :: pmd :: xs))
    (hrun : copyUvm L map src size M = .ok (false, M')) : PagesBack map (frame :: pud :: pmd :: xs) M' := by
  obtain ⟨M₁, N, hM, hfree, hback⟩ := h.mapped
  have hmap := hM.map
  unfold clearedPage at hmap
  simp only [copyUvm, hM.alloc, ok_bind, ne_eq, (h.free.pages frame (by simp)).ne_zero, not_false_eq_true, if_true,
    hmap] at hrun
  obtain ⟨⟨pd, M₂⟩, hfind, hrun⟩ := bind_eq_ok.mp hrun
  have hsame := findPudEntry_memory hfind
  dsimp only at hrun
  split at hrun
  · rw [hsame, hfree] at hrun
    cases hrun
    exact hback
  · obtain ⟨-, -, hrun⟩ := bind_eq_ok.mp hrun
    cases hrun

end FreshMap

/-- Of the calls that fail, those are cleaned up after that found a free page and did not open the file; those of
`copy_uvm` that found a free page. -/
theorem uvm_cleanup_iff (L : Layout) :
    (∀ s t p name xs, FreshMap L s.memory (s.proc p).pageMap xs → setupUvm L p name s = .ok (false, t) →
      (PagesBack (s.proc p).pageMap xs t.memory ∧ FilesBack p s t ↔
        xs ≠ [] ∧ (xs.length < 3 ∨ OpenRefuses s p name))) ∧
    ∀ M M' map src size xs, FreshMap L M map xs → copyUvm L map src size M = .ok (false, M') →
      (PagesBack map xs M' ↔ xs ≠ []) := by
  constructor
  · intro s t p name xs h hrun
    have hkept : ∀ N, FilesBack p s { s with memory := N } := fun N => ⟨rfl, rfl, fun _ => rfl⟩
    rcases xs with _ | ⟨frame, _ | ⟨pud, _ | ⟨pmd, xs⟩⟩⟩
    · rw [h.setupUvm_full] at hrun
      cases hrun
      exact iff_of_false (fun hback => not_pagesBack_of_full h.free h.page hback.1) fun hsome => hsome.1 rfl
    · obtain ⟨N, hrun', hback⟩ := h.setupUvm_few (by decide)
      obtain ⟨-, rfl⟩ := Prod.mk.inj (Except.ok.inj (hrun'.symm.trans hrun))
      exact iff_of_true ⟨hback, hkept N⟩ ⟨by simp, .inl (by simp)⟩
    · obtain ⟨N, hrun', hback⟩ := h.setupUvm_few (by simp)
      obtain ⟨-, rfl⟩ := Prod.mk.inj (Except.ok.inj (hrun'.symm.trans hrun))
      exact iff_of_true ⟨hback, hkept N⟩ ⟨by simp, .inl (by simp)⟩
    · by_cases hopen : OpenRefuses s p name
      · obtain ⟨N, hrun', hback⟩ := h.setupUvm_refused hopen
        obtain ⟨-, rfl⟩ := Prod.mk.inj (Except.ok.inj (hrun'.symm.trans hrun))
        exact iff_of_true ⟨hback, hkept N⟩ ⟨by simp, .inr hopen⟩
      · obtain ⟨fd, hnone, hsome⟩ := h.setupUvm_leaks hopen hrun
        refine iff_of_false (fun hback => hsome ?_) fun hcond => ?_
        · rw [hback.2.slots]
          exact hnone
        · rcases hcond.2 with hfew | hrefuses
          · simp only [List.length_cons] at hfew
            omega
          · exact hopen hrefuses
  · intro M M' map src size xs h hrun
    rcases xs with _ | ⟨frame, _ | ⟨pud, _ | ⟨pmd, xs⟩⟩⟩
    · rw [h.copyUvm_full] at hrun
      cases hrun
      exact iff_of_false (not_pagesBack_of_full h.free h.page) fun hsome => hsome rfl
    · obtain ⟨N, hrun', hback⟩ := h.copyUvm_few (by decide)
      obtain ⟨-, rfl⟩ := Prod.mk.inj (Except.ok.inj (hrun'.symm.trans hrun))
      exact iff_of_true hback (by simp)
    · obtain ⟨N, hrun', hback⟩ := h.copyUvm_few (by simp)
      obtain ⟨-, rfl⟩ := Prod.mk.inj (Except.ok.inj (hrun'.symm.trans hrun))
      exact iff_of_true hback (by simp)
    · exact iff_of_true (h.copyUvm_mapped hrun) (by simp)

/-- The slot of the first process. -/
def firstUser : Proc := ⟨1, by decide⟩

/-- A process with a new map, three free pages, and the disk with the file that is cut short. -/
def cutState : Kernel :=
  { (Kernel.reset smallLayout cutMem).setProc firstUser
      { (Process.zero : Process Proc) with pageMap := heapMemoryEnd - 4 * pageSize } with
    memory :=
      { mem := Mem.fill (Mem.write (Mem.write cutMem 8 (heapMemoryEnd - 3 * pageSize) (heapMemoryEnd - 2 * pageSize)) 8
          (heapMemoryEnd - 2 * pageSize) (heapMemoryEnd - pageSize)) (heapMemoryEnd - 4 * pageSize) pageSize 0
        freeMemory := heapMemoryEnd - 3 * pageSize } }

theorem cutState_map : FreshMap smallLayout cutState.memory (cutState.proc firstUser).pageMap
    [heapMemoryEnd - 3 * pageSize, heapMemoryEnd - 2 * pageSize, heapMemoryEnd - pageSize] where
  empty := NoEntry.fill _ _
  page := ⟨by decide, by decide, by decide⟩
  free := by
    refine ⟨by decide, ?_, by decide⟩
    simp only [List.forall_mem_cons]
    exact ⟨⟨by decide, by decide, by decide⟩, ⟨by decide, by decide, by decide⟩, ⟨by decide, by decide, by decide⟩, nofun⟩
  notFree := by decide

/-- The file is missing, and the free list is full again. -/
theorem uvm_cleanup_missing : ∃ t, setupUvm smallLayout firstUser (cstring ['X']) cutState = .ok (false, t) ∧
    (PagesBack (cutState.proc firstUser).pageMap
        [heapMemoryEnd - 3 * pageSize, heapMemoryEnd - 2 * pageSize, heapMemoryEnd - pageSize] t.memory ∧
      FilesBack firstUser cutState t ↔
      [heapMemoryEnd - 3 * pageSize, heapMemoryEnd - 2 * pageSize, heapMemoryEnd - pageSize] ≠ [] ∧
        ([heapMemoryEnd - 3 * pageSize, heapMemoryEnd - 2 * pageSize, heapMemoryEnd - pageSize].length < 3 ∨
          OpenRefuses cutState firstUser (cstring ['X']))) := by
  have hmissing : searchFile cutState.memory.mem (cstring ['X']) = 0xffffffff := by decide
  obtain ⟨N, hrun, -⟩ := cutState_map.setupUvm_refused (.inr (.inr hmissing))
  exact ⟨_, hrun, (uvm_cleanup_iff _).1 _ _ _ _ _ cutState_map hrun⟩

/-- With the file that is cut short, the pages come back and the first slot stays taken. Without a free page nothing
comes back. -/
theorem uvm_leaks :
    (∃ t, setupUvm smallLayout firstUser cutBin cutState = .ok (false, t) ∧ ¬FilesBack firstUser cutState t) ∧
    ∃ M map, FreshMap smallLayout M map [] ∧ copyUvm smallLayout map 0 0 M = .ok (false, M) ∧ ¬PagesBack map [] M := by
  constructor
  · obtain ⟨hslot, hdesc, hfound⟩ : freeSlot (cutState.proc firstUser) = some ⟨0, by decide⟩ ∧
        freeFileDesc cutState.fs = some 0 ∧ searchFile cutState.memory.mem cutBin ≠ 0xffffffff := by
      decide +kernel
    obtain ⟨hsize, hpath, hcluster⟩ : loadSize cutState cutBin = 600 ∧
        Path cutState.memory.mem (loadCluster cutState cutBin) [⟨3, by decide⟩] 0xffff ∧
        getClusterSize cutState.memory.mem = 512 := by decide
    have hready : SetupReady smallLayout cutState firstUser cutBin ⟨0, by decide⟩ 0 (cutState.proc firstUser).pageMap
        (heapMemoryEnd - 2 * pageSize) (heapMemoryEnd - pageSize) (heapMemoryEnd - 3 * pageSize) [] :=
      ⟨hslot, hdesc, hfound, rfl, cutState_map.page, cutState_map.empty, cutState_map.free.list, cutState_map.free.pages,
        List.nodup_cons.mpr ⟨cutState_map.notFree, cutState_map.free.nodup⟩⟩
    have hopen : ¬OpenRefuses cutState firstUser cutBin := by
      rw [openRefuses_iff, hslot, hdesc]
      simp [hfound]
    -- the one cluster of the file has 512 of its 600 bytes
    have hends : EndsBefore cutState.memory.mem (loadCluster cutState cutBin) 600 :=
      ⟨_, _, hpath, by decide, by rw [hcluster]; decide⟩
    obtain ⟨M, hM⟩ := hready.loads
    obtain ⟨t, hrun⟩ := (hready.setupUvm_short hM hends hsize.ge (by decide)).2
    obtain ⟨fd, hnone, hsome⟩ := cutState_map.setupUvm_leaks hopen hrun
    refine ⟨t, hrun, fun hback => hsome ?_⟩
    rw [hback.slots]
    exact hnone
  · have hempty : ∀ m, FreeIs smallLayout { mem := m, freeMemory := 0 } [] := fun m => ⟨rfl, nofun, List.nodup_nil⟩
    have hmap : FreshMap smallLayout { mem := Mem.fill (fun _ => 0) (heapMemoryEnd - pageSize) pageSize 0, freeMemory := 0 }
        (heapMemoryEnd - pageSize) [] :=
      ⟨NoEntry.fill _ _, ⟨by decide, by decide, by decide⟩, hempty _, List.not_mem_nil⟩
    exact ⟨_, _, hmap, hmap.copyUvm_full, not_pagesBack_of_full (hempty _) hmap.page⟩

end ArmOs
