import ArmOs.Exec.Lemmas.InOrder
import ArmOs.Exec.Lemmas.Killed

/-!
# The new program

What `exec` leaves of the process that calls it: the bytes of the file in its frame, a fresh trap frame, and everything
else as it was before the file was opened.
-/

namespace ArmOs

open Lib

variable {L : Layout} {m m' : Mem} {s t : Kernel} {p : Proc} {name : Nat → UInt8} {slot : Fin numFile}
  {ttbr0 pgd frame d i k tf o size buffer dst volume : Nat} {xs : List Cluster}

/-! ## The trap frame -/

/-- The bytes of the trap frame of a program that starts. -/
def startByte : Mem :=
  Mem.write (Mem.write (fun _ => 0) 8 TrapFrame.elr userBase) 8 TrapFrame.sp0 (userBase + pageSize)

theorem write_zero_apply (m : Mem) (n a x : Nat) : m.write n a 0 x = if a ≤ x ∧ x < a + n then 0 else m x := by
  simp [Mem.write]

theorem startFrame_apply (m : Mem) (tf : Nat) (ho : o < TrapFrame.size) : startFrame m tf (tf + o) = startByte o := by
  have hin : tf ≤ tf + o ∧ o < TrapFrame.size := ⟨Nat.le_add_right tf o, ho⟩
  have hspsr : TrapFrame.elr + 8 = TrapFrame.spsr := by decide
  have hsp0 : TrapFrame.sp0 + 8 < TrapFrame.spsr := by decide
  rw [startFrame, write_zero_apply]
  by_cases hlast : TrapFrame.spsr ≤ o ∧ o < TrapFrame.spsr + 8
  · have helr : ¬(TrapFrame.elr ≤ o ∧ o < TrapFrame.elr + 8) := by omega
    have hsp : ¬(TrapFrame.sp0 ≤ o ∧ o < TrapFrame.sp0 + 8) := by omega
    rw [if_pos (by omega)]
    simp [startByte, Mem.write, helr, hsp]
  · rw [if_neg (by omega)]
    simp only [startByte, Mem.write, Mem.fill, Nat.add_le_add_iff_left, Nat.add_assoc, Nat.add_lt_add_iff_left,
      Nat.add_sub_add_left]
    rw [if_pos hin]

/-- `x0` of the program is 0. -/
theorem startByte_x0 (h : TrapFrame.x 0 ≤ o ∧ o < TrapFrame.x 0 + 8) : startByte o = 0 := by
  have hfields : TrapFrame.x 0 + 8 ≤ TrapFrame.sp0 ∧ TrapFrame.x 0 + 8 ≤ TrapFrame.elr := by decide
  have helr : ¬(TrapFrame.elr ≤ o ∧ o < TrapFrame.elr + 8) := by omega
  have hsp : ¬(TrapFrame.sp0 ≤ o ∧ o < TrapFrame.sp0 + 8) := by omega
  simp [startByte, Mem.write, helr, hsp]

/-- The frame of the program: it starts at the beginning of its page, with the stack at the end, and every other byte
is 0. -/
theorem startByte_fields : startByte.read 8 TrapFrame.elr = userBase ∧
    startByte.read 8 TrapFrame.sp0 = userBase + pageSize ∧
    ∀ o, ¬(TrapFrame.elr ≤ o ∧ o < TrapFrame.elr + 8) → ¬(TrapFrame.sp0 ≤ o ∧ o < TrapFrame.sp0 + 8) →
      startByte o = 0 := by
  refine ⟨by decide, by decide, fun o helr hsp => ?_⟩
  simp [startByte, Mem.write, helr, hsp]

/-! ## The file -/

theorem readRawData_zero (ttbr0 c buffer : Nat) (m : Mem) : readRawData ttbr0 c buffer 0 0 m = .ok (0, m) := by
  rw [readRawData_eq, Nat.zero_div, skipClusters, ok_bind, readFrom, Nat.zero_mod, if_neg (by simp), readFuel,
    readLoop_done (Nat.le_refl 0)]

/-- The whole of a file, whatever its clusters are. -/
theorem IsFile.readWhole (h : IsFile m volume i xs) (hl : Lands m ttbr0 buffer (DirEntry.fileSize m i) dst)
    (hoff : OffImage m volume dst (DirEntry.fileSize m i)) :
    ArmOs.readRawData ttbr0 (DirEntry.clusterIndex m i) buffer 0 (DirEntry.fileSize m i) m =
      .ok (DirEntry.fileSize m i, m.put dst ((fileBytes m xs).take (DirEntry.fileSize m i))) := by
  have hcovers := h.covers
  cases Nat.eq_zero_or_pos (DirEntry.fileSize m i) with
  | inl hzero => rw [hzero, readRawData_zero, List.take_zero, Mem.put_nil]
  | inr hpos =>
      have hzero : 0 + DirEntry.fileSize m i ≤ DirEntry.fileSize m i := by omega
      have hread := h.readRawData hl hoff hzero (.inl (by omega))
      simpa using hread

theorem length_fileBytes (m : Mem) (xs : List Cluster) : (fileBytes m xs).length = xs.length * getClusterSize m := by
  simp [fileBytes, List.length_flatMap]

/-! ## The tables of open files -/

/-- Filling a slot that was empty and clearing it again. -/
theorem setFile_clear {q : Process Proc} (h : q.file slot = none) (d : Option Nat) :
    (q.setFile slot d).setFile slot none = q := by
  have hfile : Function.update q.file slot none = q.file := by
    rw [← h]
    exact Function.update_eq_self slot q.file
  simp [Process.setFile, hfile]

theorem setProc_clear {q : Process Proc} : ((s.setProc p q).setProc p (s.proc p)).processTable = s.processTable := by
  funext j
  by_cases hj : j = p
  · subst hj
    exact Kernel.setProc_self _ j _
  · rw [Kernel.setProc_ne _ _ _ _ hj, Kernel.setProc_ne _ _ _ _ hj]

theorem closeFile_run {u : Kernel} (hfile : (u.proc p).file slot = some d) (hfcb : (u.fs.fileDescTable d).fcb = some i)
    (hcount : (u.fs.fileDescTable d).count ≠ 0) (hpos : 0 < (u.fs.fcbTable i).count) :
    closeFile p slot.val u = .ok { u.setProc p ((u.proc p).setFile slot none) with
      fs := u.fs.setFcb i { u.fs.fcbTable i with count := int32 ((u.fs.fcbTable i).count - 1) } } := by
  have hfd : (0 : Int) ≤ slot.val ∧ (slot.val : Int) < numFile := ⟨Int.natCast_nonneg _, Int.ofNat_lt.mpr slot.2⟩
  have hslot : (⟨Int.toNat slot.val, by omega⟩ : Fin numFile) = slot := Fin.ext (by simp)
  unfold closeFile
  rw [dif_pos hfd]
  dsimp only
  rw [hslot, hfile]
  simp only [deref, ok_bind, hfcb, putFcb, ASSERT, require_of hpos]
  show Except.ok _ = _
  refine congrArg Except.ok ?_
  have hkeep : ((u.fs.setFcb i { u.fs.fcbTable i with count := int32 ((u.fs.fcbTable i).count - 1) }).fileDescTable
      d).count ≠ 0 := hcount
  rw [if_neg hkeep]

/-- Closing the descriptor again gives back the slot and the count of the file. -/
theorem closeFile_loading (d frame k : Nat) (m : Mem) (h : freeSlot (s.proc p) = some slot)
    (hle : 0 ≤ (s.fs.fcbTable (searchFile s.memory.mem name)).count)
    (hlt : (s.fs.fcbTable (searchFile s.memory.mem name)).count + 1 < 2 ^ 31) :
    ∃ fs, closeFile p slot.val ((loading s p name slot d frame).advance d k m) = .ok { s.setMem m with fs := fs } ∧
      ∀ j, (fs.fcbTable j).count = (s.fs.fcbTable j).count := by
  have hslot : (s.proc p).file slot = none := by simpa using (Fin.find?_eq_some_iff.mp h).1
  generalize hu : (loading s p name slot d frame).advance d k m = u
  generalize hi : searchFile s.memory.mem name = i at hle hlt
  have hproc : u.proc p = (s.proc p).setFile slot (some d) := by
    rw [← hu]
    exact Kernel.setProc_self s p _
  have hdesc : (u.fs.fileDescTable d).fcb = some i ∧ (u.fs.fileDescTable d).count = 1 := by
    rw [← hu, ← hi]
    simp only [Kernel.advance, Fs.setFileDesc, Function.update_self]
    show ((opened s p slot d (searchFile s.memory.mem name)).fs.fileDescTable d).fcb = _ ∧
      ((opened s p slot d (searchFile s.memory.mem name)).fs.fileDescTable d).count = 1
    simp [opened, Fs.setFileDesc]
  have hfcb : u.fs.fcbTable = (getFcb s.memory.mem i s.fs).fcbTable := by
    rw [← hu, ← hi]
    rfl
  have hcount : (u.fs.fcbTable i).count = (s.fs.fcbTable i).count + 1 := by
    rw [hfcb]
    by_cases hzero : (s.fs.fcbTable i).count = 0
    · simp [getFcb, Fs.setFcb, hzero, int32]
    · simp [getFcb, Fs.setFcb, hzero, int32_of_mem (show -2 ^ 31 ≤ (s.fs.fcbTable i).count + 1 by omega) hlt]
  have hpos : 0 < (u.fs.fcbTable i).count := by omega
  refine ⟨u.fs.setFcb i { u.fs.fcbTable i with count := int32 ((u.fs.fcbTable i).count - 1) }, ?_, fun j => ?_⟩
  · have hclear : (u.setProc p ((u.proc p).setFile slot none)).processTable = s.processTable := by
      rw [hproc, setFile_clear hslot, ← hu]
      exact setProc_clear
    have hfile : (u.proc p).file slot = some d := by
      rw [hproc]
      simp [Process.setFile]
    have hrest : u.setProc p ((u.proc p).setFile slot none) = { s.setMem m with
        processTable := (u.setProc p ((u.proc p).setFile slot none)).processTable
        fs := u.fs } := by
      rw [← hu]
      rfl
    rw [hclear] at hrest
    rw [closeFile_run hfile hdesc.1 (by omega) hpos, hrest]
    rfl
  · by_cases hj : j = i
    · subst hj
      simp only [Fs.setFcb, Function.update_self]
      rw [hcount, int32_of_mem (by omega) (by omega)]
      omega
    · simp [Fs.setFcb, hj, hfcb, getFcb]

/-! ## The whole of `exec` -/

/-- The memory after the program is loaded. -/
def programMem (m : Mem) (frame : Nat) (xs : List Cluster) (size : Nat) : Mem :=
  (m.fill frame pageSize 0).put frame ((fileBytes m xs).take size)

theorem ExecReady.run (h : ExecReady L s p name slot d pgd frame) (hcached : DirCached s)
    (hfile : IsFile s.memory.mem volume (searchFile s.memory.mem name) xs)
    (hsize : DirEntry.fileSize s.memory.mem (searchFile s.memory.mem name) ≤ pageSize)
    (hle : 0 ≤ (s.fs.fcbTable (searchFile s.memory.mem name)).count)
    (hlt : (s.fs.fcbTable (searchFile s.memory.mem name)).count + 1 < 2 ^ 31) :
    ∃ fs, exec p name s = .ok (some 0, { s.setMem (startFrame (programMem s.memory.mem frame xs
        (DirEntry.fileSize s.memory.mem (searchFile s.memory.mem name))) (s.proc p).tf) with fs := fs }) ∧
      ∀ j, (fs.fcbTable j).count = (s.fs.fcbTable j).count := by
  have hdir := openFcb_cached (hcached (searchFile s.memory.mem name))
  have hbelow := h.maps.framePage.below
  have habove : SameAbove s.memory.mem (s.memory.mem.fill frame pageSize 0) := fun x hx =>
    Mem.fill_same (k := 1) (.inr (by omega)) x (Nat.le_refl x) (Nat.lt_succ_self x)
  have hlands := h.cleared.lands (Nat.le_refl userBase) (Nat.add_le_add_left hsize userBase)
  rw [Nat.sub_self, Nat.add_zero, ← habove.fileSize] at hlands
  have hread := (habove.isFile hfile).readWhole hlands (.inl (by rw [habove.fileSize]; omega))
  rw [habove.fileSize, habove.clusterIndex, hfile.volume.fileBytes_eq (habove.sameImage volume)] at hread
  obtain ⟨fs, hclose, hcounts⟩ := closeFile_loading d frame
    (DirEntry.fileSize s.memory.mem (searchFile s.memory.mem name)) (programMem s.memory.mem frame xs
      (DirEntry.fileSize s.memory.mem (searchFile s.memory.mem name))) h.slot hle hlt
  have hne : DirEntry.fileSize s.memory.mem (searchFile s.memory.mem name) ≠ 0xffffffff := by
    have hpage : pageSize < 0xffffffff := by decide
    omega
  refine ⟨fs, ?_, hcounts⟩
  rw [h.exec_eq, h.ttbr0, loadSize, loadCluster, hdir.fileSize, hdir.clusterIndex, hread, ok_bind]
  dsimp only
  rw [if_neg hne]
  rw [programMem] at hclose
  rw [hclose]
  rfl

end ArmOs
