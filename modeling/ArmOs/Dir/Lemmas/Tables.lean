import Mathlib.Logic.Relation
import ArmOs.Dir.Lemmas.Search
import ArmOs.Exec.Lemmas.InOrder

/-!
# The file tables by themselves

The states of the file slots, of `file_desc_table` and of `fcb_table` that opens, closes, forks and reaps reach. An
entry of `fcb_table` that was ever filled says what the directory says, whatever the counts are.
-/

namespace ArmOs

open Lib

variable {s t u s₀ : Kernel} {p q : Proc} {path : Nat → UInt8} {d i : Nat} {r : Int}

/-- The same slots, tables and image; only positions may differ. -/
structure SameTables (s t : Kernel) : Prop where
  file : ∀ p, (t.proc p).file = (s.proc p).file
  fcb : t.fs.fcbTable = s.fs.fcbTable
  desc : ∀ d, (t.fs.fileDescTable d).fcb = (s.fs.fileDescTable d).fcb ∧
    (t.fs.fileDescTable d).count = (s.fs.fileDescTable d).count
  image : SameAbove s.memory.mem t.memory.mem

/-- A process opens a file or closes an open descriptor, `fork` copies the slots of one process to another and counts
them, or a process is reaped. -/
inductive FileStep (s t : Kernel) : Prop
  | openFile (p : Proc) (path : Nat → UInt8) : SameTables (openFile p path s).2 t → FileStep s t
  | closeFile {u : Kernel} (p : Proc) (fd : Int) : closeFile p fd s = .ok u → SameTables u t → FileStep s t
  | fork {fs : Fs} (p q : Proc) : countSlots (s.proc p).file s.fs = .ok fs →
      SameTables { s.setProc q { s.proc q with file := (s.proc p).file } with fs := fs } t → FileStep s t
  | reap (p : Proc) : SameTables (s.setProc p Process.zero) t → FileStep s t

/-- The entries that are in use say what the directory says, and the counts are values of an `int`. -/
structure TablesCached (s : Kernel) : Prop where
  cached : ∀ i, ((s.fs.fcbTable i).count ≠ 0 ∨ ∃ d, (s.fs.fileDescTable d).fcb = some i) →
    Cached s.memory.mem i (s.fs.fcbTable i)
  count : ∀ i, -2 ^ 31 ≤ (s.fs.fcbTable i).count

theorem TablesCached.same (h : TablesCached s) (hs : SameTables s t) : TablesCached t where
  cached i hi := by
    rw [hs.fcb] at hi ⊢
    refine (h.cached i (hi.imp_right (Exists.imp fun d hd => ?_))).above hs.image
    rw [← (hs.desc d).1, hd]
  count i := by
    rw [hs.fcb]
    exact h.count i

theorem TablesCached.openFile (h : TablesCached s) (p : Proc) (path : Nat → UInt8) :
    TablesCached (openFile p path s).2 := by
  by_cases hr : (ArmOs.openFile p path s).1 = -1
  · have hsame : (ArmOs.openFile p path s).2 = s := by
      rcases openFile_opened (r := (ArmOs.openFile p path s).1) Prod.mk.eta.symm with ⟨-, ht⟩ | ⟨fd, d, i, hfd, -⟩
      · exact ht
      · omega
    rw [hsame]
    exact h
  · obtain ⟨fd, d, -, -, hfound, -, ht⟩ := openFile_ok Prod.mk.eta.symm hr
    rw [ht]
    generalize searchFile s.memory.mem path = j
    have hfcb : ∀ i, i ≠ j → (opened s p fd d j).fs.fcbTable i = s.fs.fcbTable i := fun i hi => by
      simp [opened, getFcb, Fs.setFcb, Fs.setFileDesc, hi]
    refine ⟨fun i hi => ?_, fun i => ?_⟩
    · by_cases hij : i = j
      · subst hij
        have hcached : (s.fs.fcbTable i).count = 0 ∨ Cached s.memory.mem i (s.fs.fcbTable i) :=
          or_iff_not_imp_left.mpr fun hcount => h.cached i (.inl hcount)
        exact opened_cached hcached
      · rw [hfcb i hij] at hi ⊢
        refine h.cached i (hi.imp_right (Exists.imp fun k hk => ?_))
        by_cases hkd : k = d
        · subst hkd
          simp [opened, Fs.setFileDesc, Ne.symm hij] at hk
        · simpa [opened, Fs.setFileDesc, hkd, getFcb, Fs.setFcb] using hk
    · by_cases hij : i = j
      · subst hij
        simp only [opened, getFcb, Fs.setFcb, Fs.setFileDesc, Function.update_self, int32]
        omega
      · rw [hfcb i hij]
        exact h.count i

theorem TablesCached.closeFile {fd : Int} (h : TablesCached s) (hc : closeFile p fd s = .ok t) : TablesCached t := by
  obtain ⟨slot, d, j, -, hcl⟩ := closeFile_closed hc
  have hmem := closeFile_memory hc
  refine ⟨fun i hi => ?_, fun i => ?_⟩
  · rw [hmem]
    have hused : (s.fs.fcbTable i).count ≠ 0 ∨ ∃ d, (s.fs.fileDescTable d).fcb = some i := by
      cases hi with
      | inl hcount =>
          by_cases hij : i = j
          · subst hij
            exact .inr ⟨d, hcl.fcb⟩
          · rw [hcl.fcbTable, Function.update_of_ne hij] at hcount
            exact .inl hcount
      | inr hdesc =>
          obtain ⟨k, hk⟩ := hdesc
          refine .inr ⟨k, ?_⟩
          rw [hcl.desc] at hk
          split at hk
          · by_cases hkd : k = d
            · subst hkd
              simp at hk
            · rwa [Function.update_of_ne hkd] at hk
          · exact hk
    rw [hcl.fcbTable]
    by_cases hij : i = j
    · subst hij
      rw [Function.update_self]
      exact (h.cached i hused).withCount _
    · rw [Function.update_of_ne hij]
      exact h.cached i hused
  · rw [hcl.fcbTable]
    by_cases hij : i = j
    · subst hij
      simp only [Function.update_self, int32]
      omega
    · rw [Function.update_of_ne hij]
      exact h.count i

/-- Counting a slot changes the count of a file that the slot reaches. -/
theorem countSlot_tables {slot : Option Nat} {m : Mem} {fs fs' : Fs} (hrun : countSlot slot fs = .ok fs')
    (h : ∀ i, ((fs.fcbTable i).count ≠ 0 ∨ ∃ d, (fs.fileDescTable d).fcb = some i) → Cached m i (fs.fcbTable i))
    (hcount : ∀ i, -2 ^ 31 ≤ (fs.fcbTable i).count) :
    (∀ i, ((fs'.fcbTable i).count ≠ 0 ∨ ∃ d, (fs'.fileDescTable d).fcb = some i) → Cached m i (fs'.fcbTable i)) ∧
      ∀ i, -2 ^ 31 ≤ (fs'.fcbTable i).count := by
  cases slot with
  | none =>
      cases hrun
      exact ⟨h, hcount⟩
  | some d =>
      obtain ⟨j, hj, hdesc, hfcb⟩ := countSlot_some hrun
      have hkeep : ∀ k, (fs'.fileDescTable k).fcb = (fs.fileDescTable k).fcb := fun k => by
        rw [hdesc]
        by_cases hk : k = d
        · subst hk
          rw [Function.update_self]
        · rw [Function.update_of_ne hk]
      refine ⟨fun i hi => ?_, fun i => ?_⟩
      · simp only [hkeep] at hi
        rw [hfcb] at hi ⊢
        by_cases hij : i = j
        · subst hij
          rw [Function.update_self]
          exact (h i (.inr ⟨d, hj⟩)).withCount _
        · rw [Function.update_of_ne hij] at hi ⊢
          exact h i hi
      · rw [hfcb]
        by_cases hij : i = j
        · subst hij
          simp only [Function.update_self, int32]
          omega
        · rw [Function.update_of_ne hij]
          exact hcount i

theorem FileStep.tablesCached (hstep : FileStep s t) (h : TablesCached s) : TablesCached t := by
  cases hstep with
  | openFile p path hs => exact (h.openFile p path).same hs
  | closeFile p fd hc hs => exact (h.closeFile hc).same hs
  | fork p q hrun hs =>
      refine TablesCached.same ?_ hs
      obtain ⟨hcached, hcount⟩ := foldlM_keeps (P := fun fs : Fs =>
        (∀ i, ((fs.fcbTable i).count ≠ 0 ∨ ∃ d, (fs.fileDescTable d).fcb = some i) →
          Cached s.memory.mem i (fs.fcbTable i)) ∧ ∀ i, -2 ^ 31 ≤ (fs.fcbTable i).count)
        (fun hP hrun => countSlot_tables hrun hP.1 hP.2) hrun ⟨h.cached, h.count⟩
      exact ⟨hcached, hcount⟩
  | reap p hs =>
      have hreaped : TablesCached (s.setProc p Process.zero) := ⟨h.cached, h.count⟩
      exact hreaped.same hs

theorem EmptyFiles.tablesCached (h : EmptyFiles s) : TablesCached s where
  cached i hi := by
    rcases hi with hcount | ⟨d, hd⟩
    · exact absurd (h.fcb i) hcount
    · rw [h.desc] at hd
      cases hd
  count i := by
    rw [h.fcb]
    decide

theorem FileStep.run_tablesCached (hrun : Relation.ReflTransGen FileStep s t) (h : TablesCached s) : TablesCached t := by
  induction hrun with
  | refl => exact h
  | tail _ hstep ih => exact hstep.tablesCached ih

/-! ## A successful open -/

/-- `sizeof(struct FCB)`. -/
def fcbSize : Nat := 28

/-- `open_file` took the least free slot and a free entry of `file_desc_table`, and counted the file that the path
names. -/
structure Opens (s t : Kernel) (p : Proc) (path : Nat → UInt8) (fd : Fin numFile) (d : Nat) : Prop where
  slot : (s.proc p).file fd = none
  least : ∀ k < fd, (s.proc p).file k ≠ none
  desc : (s.fs.fileDescTable d).fcb = none
  descBound : fileDescSize * d + fileDescSize ≤ pageSize
  found : searchFile s.memory.mem path < getRootDirectoryCount s.memory.mem
  fcbBound : fcbSize * searchFile s.memory.mem path + fcbSize ≤ pageSize
  newSlot : t.proc p = (s.proc p).setFile fd (some d)
  otherSlots : ∀ q, q ≠ p → t.proc q = s.proc q
  newDesc : t.fs.fileDescTable = Function.update s.fs.fileDescTable d ⟨some (searchFile s.memory.mem path), 0, 1⟩
  clusterIndex : (t.fs.fcbTable (searchFile s.memory.mem path)).clusterIndex =
    DirEntry.clusterIndex s.memory.mem (searchFile s.memory.mem path)
  fileSize : (t.fs.fcbTable (searchFile s.memory.mem path)).fileSize =
    DirEntry.fileSize s.memory.mem (searchFile s.memory.mem path)
  count : (t.fs.fcbTable (searchFile s.memory.mem path)).count =
    (s.fs.fcbTable (searchFile s.memory.mem path)).count + 1
  otherFcbs : ∀ j, j ≠ searchFile s.memory.mem path → t.fs.fcbTable j = s.fs.fcbTable j
  rest : t = { s with
    processTable := t.processTable
    fs := { s.fs with fcbTable := t.fs.fcbTable, fileDescTable := t.fs.fileDescTable } }

theorem openFile_opens
    (hcached : (s.fs.fcbTable (searchFile s.memory.mem path)).count ≠ 0 →
      Cached s.memory.mem (searchFile s.memory.mem path) (s.fs.fcbTable (searchFile s.memory.mem path)))
    (hle : -2 ^ 31 ≤ (s.fs.fcbTable (searchFile s.memory.mem path)).count)
    (hlt : (s.fs.fcbTable (searchFile s.memory.mem path)).count < 2 ^ 31 - 1)
    (h : openFile p path s = (r, t)) (hr : r ≠ -1) : ∃ fd d, r = (fd.val : Int) ∧ Opens s t p path fd d := by
  have hint : int32 ((s.fs.fcbTable (searchFile s.memory.mem path)).count + 1) =
      (s.fs.fcbTable (searchFile s.memory.mem path)).count + 1 := int32_of_mem (by omega) (by omega)
  obtain ⟨fd, d, hfd, hd, hfound, hr, ht⟩ := openFile_ok h hr
  have hcount := (searchFile_inUse hfound).1
  have hsize := rootCount_lt s.memory.mem
  have hcache : Cached s.memory.mem (searchFile s.memory.mem path)
      ((opened s p fd d (searchFile s.memory.mem path)).fs.fcbTable (searchFile s.memory.mem path)) :=
    opened_cached (or_iff_not_imp_left.mpr hcached)
  obtain ⟨hfree, hleast⟩ := Fin.find?_eq_some_iff.mp hfd
  obtain ⟨-, hdlt, hdfree, -⟩ := findFrom_eq_some.mp hd
  have hbound : fcbSize * 65536 ≤ pageSize := by decide
  rw [Nat.zero_add] at hdlt
  refine ⟨fd, d, hr, ⟨by simpa using hfree, fun k hk => by simpa [← Option.isSome_iff_ne_none] using hleast k hk, by simpa using hdfree, ?_, hcount, ?_,
    ?_, fun q hq => ?_, ?_, ?_, ?_, ?_, fun j hj => ?_, ?_⟩⟩
  · calc fileDescSize * d + fileDescSize
      _ = fileDescSize * (d + 1) := rfl
      _ ≤ fileDescSize * (pageSize / fileDescSize) := Nat.mul_le_mul_left _ hdlt
      _ ≤ pageSize := Nat.mul_div_le _ _
  · calc fcbSize * searchFile s.memory.mem path + fcbSize
      _ = fcbSize * (searchFile s.memory.mem path + 1) := rfl
      _ ≤ fcbSize * 65536 := Nat.mul_le_mul_left _ (by omega)
      _ ≤ pageSize := hbound
  · rw [ht]
    exact Kernel.setProc_self s p _
  · rw [ht]
    exact s.setProc_ne p q _ hq
  · rw [ht]
    rfl
  · rw [ht]
    exact hcache.clusterIndex
  · rw [ht]
    exact hcache.fileSize
  · rw [ht, opened_fcb, ← hint]
    simp [openFcb, getFcb, Fs.setFcb]
    split <;> rfl
  · rw [ht]
    simp [opened, getFcb, Fs.setFcb, Fs.setFileDesc, hj]
  · rw [ht]
    rfl

end ArmOs
