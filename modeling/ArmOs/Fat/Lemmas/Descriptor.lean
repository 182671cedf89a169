import ArmOs.Fat.Lemmas.Copies

/-!
# Reading through a descriptor

`read_file` on a slot that is open: it refuses the read, or it reads from the position of the table entry on and
moves the position. The files of an image are its directory entries with the clusters they own.
-/

namespace ArmOs

open Lib

/-- The slot `fd` of the process points to the table entry `d`, which is open on the file `f`. -/
structure Descriptor (s : Kernel) (p : Proc) (fd : Int) (d f : Nat) : Prop where
  slot : fileSlot (s.proc p) fd = .ok (some d)
  fcb : (s.fs.fileDescTable d).fcb = some f

/-- The test of `read_file`, in 32-bit arithmetic: does it return -1 at once? -/
def Refused (position size fileSize : Nat) : Prop := fileSize < (position + size) % 2 ^ 32

instance (position size fileSize : Nat) : Decidable (Refused position size fileSize) :=
  inferInstanceAs (Decidable (fileSize < (position + size) % 2 ^ 32))

/-- The state after `n` bytes have been read through the table entry `d`, and the memory is `m`. -/
def Kernel.advance (s : Kernel) (d n : Nat) (m : Mem) : Kernel :=
  { s.setMem m with
    fs := s.fs.setFileDesc d
      { s.fs.fileDescTable d with position := ((s.fs.fileDescTable d).position + n) % 2 ^ 32 } }

/-- The table entry keeps what the directory says about its file. -/
structure Cached (m : Mem) (f : Nat) (fcb : FCB) : Prop where
  clusterIndex : fcb.clusterIndex = DirEntry.clusterIndex m f
  fileSize : fcb.fileSize = DirEntry.fileSize m f

/-- The directory entry `i` is one that `search_file` may stop at. -/
def InUse (m : Mem) (i : Nat) : Prop :=
  i < getRootDirectoryCount m ∧ m (dirEntry m i) ≠ entryEmpty ∧ m (dirEntry m i) ≠ entryDeleted ∧
    DirEntry.attributes m i ≠ 0xf

/-- The file of the directory entry `i` has the clusters `xs`, which lie in the volume and hold its bytes. -/
structure IsFile (m : Mem) (volume i : Nat) (xs : List Cluster) : Prop where
  chain : xs = [] ∨ IsChain m (DirEntry.clusterIndex m i) xs
  volume : InVolume m volume xs
  covers : DirEntry.fileSize m i ≤ xs.length * getClusterSize m

/-- A FAT16 image on a volume of `volume` bytes. -/
structure WellFormed (m : Mem) (volume : Nat) : Prop where
  clusterSize : 0 < getClusterSize m
  block : 512 ≤ volume
  lt : volume < 2 ^ 32
  directory : (Bpb.reservedSectorCount m + Bpb.fatCount m * Bpb.sectorsPerFat m) * Bpb.bytesPerSector m +
    32 * Bpb.rootEntryCount m ≤ volume
  files : ∀ i, InUse m i → ∃ xs, IsFile m volume i xs

variable {s t : Kernel} {p : Proc} {fd : Int} {m : Mem} {volume ttbr0 d f i n buffer size dst : Nat}
  {xs : List Cluster}

namespace Descriptor

variable (h : Descriptor s p fd d f)

include h

theorem readFile_refused (buffer : Nat)
    (hr : Refused (s.fs.fileDescTable d).position size (s.fs.fcbTable f).fileSize) :
    readFile p fd buffer size s = .ok (0xffffffff, s) := by
  unfold Refused at hr
  unfold readFile
  simp only [h.slot, h.fcb, ok_bind, deref, if_pos hr]
  rfl

theorem readFile_eq (hr : ¬Refused (s.fs.fileDescTable d).position size (s.fs.fcbTable f).fileSize) :
    readFile p fd buffer size s = (do
      let r ← readRawData s.ttbr0 (s.fs.fcbTable f).clusterIndex buffer (s.fs.fileDescTable d).position size
        s.memory.mem
      return (r.1, s.advance d r.1 r.2)) := by
  unfold Refused at hr
  unfold readFile
  simp only [h.slot, h.fcb, ok_bind, deref, if_neg hr, Kernel.advance]

end Descriptor

/-- A read that returns went through a descriptor. -/
theorem exists_descriptor (h : readFile p fd buffer size s = .ok (n, t)) : ∃ d f, Descriptor s p fd d f := by
  unfold readFile at h
  obtain ⟨slot, hslot, h⟩ := bind_eq_ok.mp h
  cases slot with
  | none => cases h
  | some d =>
      simp only [deref, ok_bind] at h
      cases hfcb : (s.fs.fileDescTable d).fcb with
      | none =>
          rw [hfcb] at h
          cases h
      | some f => exact ⟨d, f, hslot, hfcb⟩

@[simp] theorem advance_fcbTable : (s.advance d n m).fs.fcbTable = s.fs.fcbTable := rfl

@[simp] theorem advance_mem : (s.advance d n m).memory.mem = m := rfl

@[simp] theorem advance_processTable : (s.advance d n m).processTable = s.processTable := rfl

theorem advance_position : ((s.advance d n m).fs.fileDescTable d).position =
    ((s.fs.fileDescTable d).position + n) % 2 ^ 32 := by
  simp [Kernel.advance, Fs.setFileDesc]

theorem advance_fcb (d' : Nat) : ((s.advance d n m).fs.fileDescTable d').fcb = (s.fs.fileDescTable d').fcb := by
  by_cases hd : d' = d
  · subst hd
    simp [Kernel.advance, Fs.setFileDesc]
  · simp [Kernel.advance, Fs.setFileDesc, Function.update_of_ne hd]

theorem advance_of_ne {d' : Nat} (hd : d' ≠ d) : (s.advance d n m).fs.fileDescTable d' = s.fs.fileDescTable d' := by
  simp [Kernel.advance, Fs.setFileDesc, Function.update_of_ne hd]

/-- Only a refused read returns -1 and changes nothing. -/
theorem Descriptor.not_refused (h : Descriptor s p fd d f)
    (hr : ¬Refused (s.fs.fileDescTable d).position size (s.fs.fcbTable f).fileSize) :
    readFile p fd buffer size s ≠ .ok (0xffffffff, s) := by
  intro hread
  rw [h.readFile_eq hr] at hread
  obtain ⟨⟨n, m⟩, -, hread⟩ := bind_eq_ok.mp hread
  have hpair := Prod.mk.inj (Except.ok.inj hread)
  have hposition := congrArg (fun t : Kernel => (t.fs.fileDescTable d).position) hpair.2
  have hn : n = 0xffffffff := hpair.1
  subst hn
  dsimp only at hposition
  rw [advance_position] at hposition
  omega

/-- The bytes that the read of a file gives. -/
theorem IsFile.readRawData (h : IsFile m volume i xs) (hl : Lands m ttbr0 buffer size dst)
    (hoff : OffImage m volume dst size) {position : Nat} (hsize : position + size ≤ DirEntry.fileSize m i)
    (hlt : position < xs.length * getClusterSize m ∨ xs = []) :
    readRawData ttbr0 (DirEntry.clusterIndex m i) buffer position size m =
      .ok (size, m.put dst (((fileBytes m xs).drop position).take size)) := by
  have hcovers := h.covers
  have hchain : xs ≠ [] → IsChain m (DirEntry.clusterIndex m i) xs := h.chain.resolve_left
  cases hlt with
  | inl hlt =>
      have hne : xs ≠ [] := by
        rintro rfl
        simp at hlt
      have hlen := (hchain hne).length_mul_le h.volume
      obtain ⟨e, he, hp⟩ := hchain hne
      rw [readRawData_path hp (.ofVolume h.volume hoff) hl (Nat.lt_of_le_of_lt hlen h.volume.lt) hlt (by omega),
        h.volume.pathData_eq]
  | inr hnil =>
      subst hnil
      rw [List.length_nil, Nat.zero_mul] at hcovers
      obtain ⟨rfl, rfl⟩ : position = 0 ∧ size = 0 := by omega
      rw [readRawData_eq, Nat.zero_div, Nat.zero_mod, skipClusters, ok_bind, readFrom, if_neg (by simp), readFuel,
        readLoop_done (Nat.le_refl 0)]
      simp

end ArmOs
