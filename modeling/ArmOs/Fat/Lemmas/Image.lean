import ArmOs.Fat.Lemmas.Descriptor

/-!
# The same image

Two memories with the same image have the same directory and the same files, so that a search finds the same entry
and a chain leads through the same clusters.
-/

namespace ArmOs

open Lib

/-- The root directory lies in the volume. -/
def DirectoryWithin (m : Mem) (volume : Nat) : Prop :=
  512 ≤ volume ∧ getRootDirectory m + dirEntrySize * getRootDirectoryCount m ≤ getFsBpb m + volume

variable {m m' : Mem} {volume i n : Nat} {c e : Nat} {xs : List Cluster}

namespace SameImage

variable (h : SameImage m m' volume) (hd : DirectoryWithin m volume)

include h hd

/-! ## The directory -/

theorem rootDirectory : getRootDirectory m' = getRootDirectory m := by
  rw [getRootDirectory, getRootDirectory, h.bpb hd.1, h.reservedSectorCount hd.1, h.fatCount hd.1,
    h.sectorsPerFat hd.1, h.bytesPerSector hd.1]

theorem rootDirectoryCount : getRootDirectoryCount m' = getRootDirectoryCount m := h.rootEntryCount hd.1

theorem dirEntry (i : Nat) : ArmOs.dirEntry m' i = ArmOs.dirEntry m i := by
  rw [ArmOs.dirEntry, ArmOs.dirEntry, h.rootDirectory hd]

/-- The bytes of an entry. -/
theorem entry (hi : i < getRootDirectoryCount m) :
    Mem.Same m m' (ArmOs.dirEntry m i) dirEntrySize := by
  have hroot : getFsBpb m ≤ getRootDirectory m := Nat.le_add_right _ _
  have hend := hd.2
  refine h.same ?_ ?_
  · exact (fsBase_le_bpb m).trans (hroot.trans (Nat.le_add_right _ _))
  · simp only [ArmOs.dirEntry, dirEntrySize] at hend ⊢
    omega

variable (hi : i < getRootDirectoryCount m)

include hi

theorem firstByte : m' (ArmOs.dirEntry m' i) = m (ArmOs.dirEntry m i) := by
  rw [h.dirEntry hd]
  exact h.entry hd hi _ (Nat.le_refl _) (by simp only [dirEntrySize]; omega)

theorem name : DirEntry.name m' i = DirEntry.name m i := by
  rw [DirEntry.name, DirEntry.name, h.dirEntry hd]
  exact Mem.bytes_congr ((h.entry hd hi).sub (Nat.le_refl _) (by simp only [dirEntrySize]; omega))

theorem ext : DirEntry.ext m' i = DirEntry.ext m i := by
  rw [DirEntry.ext, DirEntry.ext, h.dirEntry hd]
  exact Mem.bytes_congr ((h.entry hd hi).sub (Nat.le_add_right _ _) (by simp only [dirEntrySize]; omega))

theorem attributes : DirEntry.attributes m' i = DirEntry.attributes m i := by
  rw [DirEntry.attributes, DirEntry.attributes, h.dirEntry hd]
  exact Mem.read_congr ((h.entry hd hi).sub (Nat.le_add_right _ _) (by simp only [dirEntrySize]; omega))

theorem clusterIndex : DirEntry.clusterIndex m' i = DirEntry.clusterIndex m i := by
  rw [DirEntry.clusterIndex, DirEntry.clusterIndex, h.dirEntry hd]
  exact Mem.read_congr ((h.entry hd hi).sub (Nat.le_add_right _ _) (by simp only [dirEntrySize]; omega))

theorem fileSize : DirEntry.fileSize m' i = DirEntry.fileSize m i := by
  rw [DirEntry.fileSize, DirEntry.fileSize, h.dirEntry hd]
  exact Mem.read_congr ((h.entry hd hi).sub (Nat.le_add_right _ _) (by simp only [dirEntrySize]; omega))

theorem isMatch (name ext : List UInt8) : ArmOs.isMatch m' name ext i = ArmOs.isMatch m name ext i := by
  simp only [ArmOs.isMatch, isFileNameEqual, h.firstByte hd hi, h.attributes hd hi, h.name hd hi, h.ext hd hi]

omit hi

/-- A search finds the same entry. -/
theorem searchFile (path : Nat → UInt8) : ArmOs.searchFile m' path = ArmOs.searchFile m path := by
  have hfind : ∀ name ext, findFrom (ArmOs.isMatch m' name ext) (getRootDirectoryCount m) 0 =
      findFrom (ArmOs.isMatch m name ext) (getRootDirectoryCount m) 0 := fun name ext =>
    findFrom_congr fun k _ hk => h.isMatch hd (by omega) name ext
  simp only [ArmOs.searchFile, h.rootDirectoryCount hd, hfind]

end SameImage

/-! ## Files -/

theorem WellFormed.directoryWithin (h : WellFormed m volume) : DirectoryWithin m volume := by
  refine ⟨h.block, ?_⟩
  have hdir := h.directory
  have hmod := Nat.mod_le
    ((Bpb.reservedSectorCount m + Bpb.fatCount m * Bpb.sectorsPerFat m) * Bpb.bytesPerSector m) (2 ^ 32)
  simp only [getRootDirectory, getRootDirectoryCount, dirEntrySize]
  omega

theorem searchFile_inUse {path : Nat → UInt8} (h : searchFile m path ≠ 0xffffffff) : InUse m (searchFile m path) := by
  unfold searchFile at h ⊢
  split at h
  · rename_i name ext hsplit
    split at h
    · rename_i j hj
      obtain ⟨-, hlt, hmatch, -⟩ := findFrom_eq_some.mp hj
      unfold isMatch at hmatch
      split at hmatch
      · cases hmatch
      · rename_i hfirst
        split at hmatch
        · cases hmatch
        · rename_i hattr
          exact ⟨by omega, fun he => hfirst (.inl he), fun he => hfirst (.inr he), hattr⟩
    · exact absurd rfl h
  · exact absurd rfl h

theorem InVolume.congr (h : InVolume m volume xs) (hm : SameImage m m' volume) : InVolume m' volume xs where
  lt := h.lt
  block := h.block
  link := by
    intro x hx
    rw [hm.reservedSectorCount h.block, hm.bytesPerSector h.block]
    exact h.link x hx
  data := by
    intro x hx
    rw [hm.start h.block, hm.clusterSize h.block]
    exact h.data x hx

theorem Path.congr (h : Path m c xs e) (hv : InVolume m volume xs) (hm : SameImage m m' volume) : Path m' c xs e :=
  Chain.congr h fun x hx => hm.clusterValue hv.block (hv.link x hx)

theorem IsFile.congr (h : IsFile m volume i xs) (hm : SameImage m m' volume) (hd : DirectoryWithin m volume)
    (hi : i < getRootDirectoryCount m) : IsFile m' volume i xs where
  chain := by
    refine h.chain.imp_right fun hc => ?_
    obtain ⟨e, he, hp⟩ := hc
    rw [hm.clusterIndex hd hi]
    exact ⟨e, he, hp.congr h.volume hm⟩
  volume := h.volume.congr hm
  covers := by
    rw [hm.fileSize hd hi, hm.clusterSize hd.1]
    exact h.covers

/-- The bytes of a file are part of the image. -/
theorem InVolume.fileBytes_eq (h : InVolume m volume xs) (hm : SameImage m m' volume) : fileBytes m' xs = fileBytes m xs := by
  refine List.flatMap_congr fun x hx => ?_
  have hdata := h.data x hx
  have hle := fsBase_le_bpb m
  rw [clusterBytes, clusterBytes, hm.bpb h.block, hm.start h.block, hm.clusterSize h.block]
  exact Mem.bytes_congr (hm.same (by omega) (by omega))

theorem WellFormed.congr (h : WellFormed m volume) (hm : SameImage m m' volume) : WellFormed m' volume where
  clusterSize := by rw [hm.clusterSize h.block]; exact h.clusterSize
  block := h.block
  lt := h.lt
  directory := by
    rw [hm.reservedSectorCount h.block, hm.fatCount h.block, hm.sectorsPerFat h.block, hm.bytesPerSector h.block,
      hm.rootEntryCount h.block]
    exact h.directory
  files := by
    have hd := h.directoryWithin
    rintro i ⟨hi, hempty, hdeleted, hattr⟩
    rw [hm.rootDirectoryCount hd] at hi
    rw [hm.firstByte hd hi] at hempty hdeleted
    rw [hm.attributes hd hi] at hattr
    obtain ⟨xs, hf⟩ := h.files i ⟨hi, hempty, hdeleted, hattr⟩
    exact ⟨xs, hf.congr hm hd hi⟩

/-! ## Writing below the image -/

/-- `m'` has the image of `m`, however large it is. -/
def SameAbove (m m' : Mem) : Prop := ∀ x, fsBase ≤ x → m' x = m x

theorem SameOutside.above {dst : Nat} (h : SameOutside m m' dst n) (hdst : dst + n ≤ fsBase) : SameAbove m m' :=
  fun x hx => h x (.inr (by omega))

namespace SameAbove

variable (h : SameAbove m m')

include h

theorem sameImage (volume : Nat) : SameImage m m' volume := fun x hx _ => h x hx

/-- A volume that holds the whole directory, whatever the parameters are. -/
theorem rootDirectory : getRootDirectory m' = getRootDirectory m ∧ ∃ volume, DirectoryWithin m volume := by
  have hd : DirectoryWithin m (512 + 2 ^ 32 + dirEntrySize * getRootDirectoryCount m) := by
    refine ⟨by omega, ?_⟩
    have hmod := Nat.mod_lt ((Bpb.reservedSectorCount m + Bpb.fatCount m * Bpb.sectorsPerFat m) *
      Bpb.bytesPerSector m) (show 0 < 2 ^ 32 by decide)
    rw [getRootDirectory]
    omega
  exact ⟨(h.sameImage _).rootDirectory hd, _, hd⟩

theorem searchFile (path : Nat → UInt8) : ArmOs.searchFile m' path = ArmOs.searchFile m path := by
  obtain ⟨-, volume, hd⟩ := h.rootDirectory
  exact (h.sameImage volume).searchFile hd path

theorem dirField (k o i : Nat) : m'.read k (ArmOs.dirEntry m' i + o) = m.read k (ArmOs.dirEntry m i + o) := by
  rw [ArmOs.dirEntry, ArmOs.dirEntry, h.rootDirectory.1]
  refine Mem.read_congr fun x hx _ => h x ?_
  have hbpb := fsBase_le_bpb m
  have hroot : getFsBpb m ≤ getRootDirectory m := Nat.le_add_right _ _
  omega

theorem fileSize (i : Nat) : DirEntry.fileSize m' i = DirEntry.fileSize m i := h.dirField 4 28 i

theorem clusterIndex (i : Nat) : DirEntry.clusterIndex m' i = DirEntry.clusterIndex m i := h.dirField 2 26 i

theorem bpb : getFsBpb m' = getFsBpb m := (h.sameImage 512).bpb (Nat.le_refl _)

theorem clusterSize : getClusterSize m' = getClusterSize m := (h.sameImage 512).clusterSize (Nat.le_refl _)

theorem clusterValue (c : Nat) : getClusterValue m' c = getClusterValue m c :=
  (h.sameImage _).clusterValue (Nat.le_add_right 512 _) (Nat.le_add_left _ _)

theorem pathData (xs : List Cluster) : ArmOs.pathData m' xs = ArmOs.pathData m xs :=
  List.flatMap_congr fun _ _ => (h.sameImage _).clusterData (Nat.le_add_right 512 _) (Nat.le_add_left _ _)

theorem path (hp : Path m c xs e) : Path m' c xs e := Chain.congr hp fun x _ => h.clusterValue x

theorem isFile (hf : IsFile m volume i xs) : IsFile m' volume i xs where
  chain := by
    refine hf.chain.imp_right fun hc => ?_
    obtain ⟨e, he, hp⟩ := hc
    rw [h.clusterIndex]
    exact ⟨e, he, hp.congr hf.volume (h.sameImage volume)⟩
  volume := hf.volume.congr (h.sameImage volume)
  covers := by
    rw [h.fileSize, (h.sameImage volume).clusterSize hf.volume.block]
    exact hf.covers

end SameAbove

end ArmOs
