import ArmOs.Fat.Lemmas.Image
import ArmOs.Files.Lemmas.Effects

/-!
# Opening a file to load it

`open_file` takes the first free slot and the first free table entry, and finds the file by its name. Then the
slot leads to the file at position 0.
-/

namespace ArmOs

open Lib

variable {s t : Kernel} {p : Proc} {path : Nat → UInt8} {r : Int} {d f i size n : Nat} {slot : Fin numFile}

/-- The state after `open_file` of the file `i`, with the slot and the table entry that it took. -/
def opened (s : Kernel) (p : Proc) (slot : Fin numFile) (d i : Nat) : Kernel :=
  { s.setProc p ((s.proc p).setFile slot (some d)) with
    fs := (getFcb s.memory.mem i s.fs).setFileDesc d { FileDesc.zero with fcb := some i, count := 1 } }

theorem openFile_eq (hslot : freeSlot (s.proc p) = some slot) (hdesc : freeFileDesc s.fs = some d)
    (hfile : searchFile s.memory.mem path ≠ 0xffffffff) :
    openFile p path s = ((slot.val : Int), opened s p slot d (searchFile s.memory.mem path)) := by
  unfold openFile
  rw [hslot]
  dsimp only
  rw [hdesc]
  dsimp only
  rw [if_neg hfile, opened]

theorem openFile_missing (h : searchFile s.memory.mem path = 0xffffffff) : openFile p path s = (-1, s) := by
  unfold openFile
  split
  · rfl
  · split
    · rfl
    · exact if_pos h

/-- A call of `open_file` that does not fail. -/
theorem openFile_ok (h : openFile p path s = (r, t)) (hr : r ≠ -1) :
    ∃ slot d, freeSlot (s.proc p) = some slot ∧ freeFileDesc s.fs = some d ∧
      searchFile s.memory.mem path ≠ 0xffffffff ∧ r = slot.val ∧
      t = opened s p slot d (searchFile s.memory.mem path) := by
  cases hslot : freeSlot (s.proc p) with
  | none =>
      unfold openFile at h
      rw [hslot] at h
      exact absurd (Prod.mk.inj h).1.symm hr
  | some slot =>
      cases hdesc : freeFileDesc s.fs with
      | none =>
          unfold openFile at h
          rw [hslot] at h
          dsimp only at h
          rw [hdesc] at h
          exact absurd (Prod.mk.inj h).1.symm hr
      | some d =>
          by_cases hfile : searchFile s.memory.mem path = 0xffffffff
          · rw [openFile_missing hfile] at h
            exact absurd (Prod.mk.inj h).1.symm hr
          · rw [openFile_eq hslot hdesc hfile] at h
            obtain ⟨hfd, ht⟩ := Prod.mk.inj h
            exact ⟨slot, d, rfl, rfl, hfile, hfd.symm, ht.symm⟩

/-- Why `open_file` fails: no free slot, no free table entry, or no file. -/
def OpenRefuses (s : Kernel) (p : Proc) (path : Nat → UInt8) : Prop :=
  (∀ fd, (s.proc p).file fd ≠ none) ∨ (∀ d < pageSize / fileDescSize, (s.fs.fileDescTable d).fcb ≠ none) ∨
    searchFile s.memory.mem path = 0xffffffff

theorem openRefuses_iff : OpenRefuses s p path ↔
    freeSlot (s.proc p) = none ∨ freeFileDesc s.fs = none ∨ searchFile s.memory.mem path = 0xffffffff := by
  have hslot : freeSlot (s.proc p) = none ↔ ∀ fd, (s.proc p).file fd ≠ none := by
    simp [freeSlot, Option.ne_none_iff_isSome]
  have hdesc : freeFileDesc s.fs = none ↔ ∀ d < pageSize / fileDescSize, (s.fs.fileDescTable d).fcb ≠ none := by
    simp [freeFileDesc, findFrom_eq_none, Option.ne_none_iff_isSome]
  rw [OpenRefuses, hslot, hdesc]

/-- `open_file` returns -1 exactly for one of these reasons. -/
theorem openFile_fails_iff (h : openFile p path s = (r, t)) : r = -1 ↔ OpenRefuses s p path := by
  rw [openRefuses_iff]
  constructor
  · intro hr
    cases hslot : freeSlot (s.proc p) with
    | none => exact .inl rfl
    | some fd =>
        cases hdesc : freeFileDesc s.fs with
        | none => exact .inr (.inl rfl)
        | some d =>
            refine .inr (.inr ?_)
            by_contra hfound
            rw [openFile_eq hslot hdesc hfound] at h
            have hfd := (Prod.mk.inj h).1
            omega
  · intro hfail
    by_contra hr
    obtain ⟨fd, d, hfd, hd, hfound, -, -⟩ := openFile_ok h hr
    rcases hfail with hfail | hfail | hfail
    · rw [hfail] at hfd
      cases hfd
    · rw [hfail] at hd
      cases hd
    · exact hfound hfail

/-! ## The new descriptor -/

theorem fileSlot_val (q : Process Proc) (slot : Fin numFile) : fileSlot q (slot.val : Int) = .ok (q.file slot) := by
  have h : (0 : Int) ≤ slot.val ∧ (slot.val : Int) < numFile := ⟨Int.natCast_nonneg _, Int.ofNat_lt.mpr slot.2⟩
  rw [fileSlot, dif_pos h]
  rfl

theorem opened_descriptor (s : Kernel) (p : Proc) (slot : Fin numFile) (d i : Nat) :
    Descriptor (opened s p slot d i) p (slot.val : Int) d i where
  slot := by
    rw [fileSlot_val]
    simp [opened, Kernel.proc, Process.setFile]
  fcb := by simp [opened, Fs.setFileDesc]

theorem opened_position (s : Kernel) (p : Proc) (slot : Fin numFile) (d i : Nat) :
    ((opened s p slot d i).fs.fileDescTable d).position = 0 := by
  simp [opened, Fs.setFileDesc, FileDesc.zero]

/-- What the directory says about the file, if the table entry of the file was free. -/
theorem opened_cached (h : (s.fs.fcbTable i).count = 0 ∨ Cached s.memory.mem i (s.fs.fcbTable i)) :
    Cached s.memory.mem i ((opened s p slot d i).fs.fcbTable i) := by
  by_cases hcount : (s.fs.fcbTable i).count = 0
  · constructor
    · simp [opened, getFcb, Fs.setFcb, Fs.setFileDesc, hcount]
    · simp [opened, getFcb, Fs.setFcb, Fs.setFileDesc, hcount]
  · have hc := h.resolve_left hcount
    constructor
    · simpa [opened, getFcb, Fs.setFcb, Fs.setFileDesc, hcount] using hc.clusterIndex
    · simpa [opened, getFcb, Fs.setFcb, Fs.setFileDesc, hcount] using hc.fileSize

@[simp] theorem opened_memory (s : Kernel) (p : Proc) (slot : Fin numFile) (d i : Nat) :
    (opened s p slot d i).memory = s.memory := rfl

@[simp] theorem opened_ttbr0 (s : Kernel) (p : Proc) (slot : Fin numFile) (d i : Nat) :
    (opened s p slot d i).ttbr0 = s.ttbr0 := rfl

theorem Descriptor.getFileSize_eq {fd : Int} (h : Descriptor s p fd d f) :
    getFileSize p fd s = .ok (s.fs.fcbTable f).fileSize := by
  simp only [getFileSize, h.slot, h.fcb, ok_bind, deref]
  rfl

/-- `openFile` does not touch the memory. -/
theorem openFile_memory (p : Proc) (path : Nat → UInt8) (s : Kernel) : (openFile p path s).2.memory = s.memory := by
  unfold openFile
  split
  · rfl
  · split
    · rfl
    · dsimp only
      split
      · rfl
      · rfl

theorem closeFile_memory {fd : Int} (h : closeFile p fd s = .ok t) : t.memory = s.memory := by
  unfold closeFile at h
  split at h
  · obtain ⟨_, -, h⟩ := bind_eq_ok.mp h
    obtain ⟨_, -, h⟩ := bind_eq_ok.mp h
    obtain ⟨_, -, h⟩ := bind_eq_ok.mp h
    cases h
    rfl
  · cases h

/-! ## The pages of the tables -/

theorem openFile_pages (p : Proc) (path : Nat → UInt8) (s : Kernel) :
    (openFile p path s).2.fs.fcbPage = s.fs.fcbPage ∧ (openFile p path s).2.fs.fileDescPage = s.fs.fileDescPage := by
  unfold openFile
  split
  · exact ⟨rfl, rfl⟩
  · split
    · exact ⟨rfl, rfl⟩
    · dsimp only
      split
      · exact ⟨rfl, rfl⟩
      · exact ⟨rfl, rfl⟩

theorem closeFile_pages {fd : Int} (h : closeFile p fd s = .ok t) :
    t.fs.fcbPage = s.fs.fcbPage ∧ t.fs.fileDescPage = s.fs.fileDescPage := by
  unfold closeFile at h
  split at h
  · obtain ⟨d, -, h⟩ := bind_eq_ok.mp h
    obtain ⟨k, -, h⟩ := bind_eq_ok.mp h
    obtain ⟨fs, hfs, h⟩ := bind_eq_ok.mp h
    obtain ⟨_, -, hfs⟩ := bind_eq_ok.mp hfs
    cases hfs
    cases h
    by_cases hz : (s.fs.fileDescTable d).count = 0 <;> simp [Fs.setFcb, Fs.setFileDesc, hz]
  · cases h

theorem readFile_pages {fd : Int} {buffer : Nat} (h : readFile p fd buffer size s = .ok (n, t)) :
    t.fs.fcbPage = s.fs.fcbPage ∧ t.fs.fileDescPage = s.fs.fileDescPage := by
  obtain ⟨d, f, hd⟩ := exists_descriptor h
  by_cases hr : Refused (s.fs.fileDescTable d).position size (s.fs.fcbTable f).fileSize
  · rw [hd.readFile_refused buffer hr] at h
    cases h
    exact ⟨rfl, rfl⟩
  · rw [hd.readFile_eq hr] at h
    obtain ⟨⟨k, m⟩, -, h⟩ := bind_eq_ok.mp h
    cases h
    exact ⟨rfl, rfl⟩

end ArmOs
