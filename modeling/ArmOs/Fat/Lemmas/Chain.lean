import ArmOs.Kernel.Fs
import ArmOs.Lib.Chain
import ArmOs.Lib.Chunks

/-!
# Cluster chains

The table of a FAT16 image leads from each cluster of a file to the next one. A path of the table is a linked
chain of clusters, and the chain of a file ends in a mark; the data of a file are the bytes of its clusters in
a row.
-/

namespace ArmOs

open Lib

/-- The numbers of the clusters of a file. -/
abbrev Cluster := {c : Nat // 2 ≤ c ∧ c ≤ 0xfff6}

variable (m : Mem)

/-- The table leads from `c` through the clusters `xs` to the value `e`. -/
def Path (c : Nat) (xs : List Cluster) (e : Nat) : Prop :=
  Chain Subtype.val e (fun x : Cluster => getClusterValue m x) c xs

/-- The chain from `c` on visits the clusters `xs`, and then there is an end mark. -/
def IsChain (c : Nat) (xs : List Cluster) : Prop := ∃ e, 0xfff8 ≤ e ∧ Path m c xs e

/-- Where the cluster `n` starts in the volume. -/
def clusterStart (n : Nat) : Nat :=
  (Bpb.reservedSectorCount m + Bpb.fatCount m * Bpb.sectorsPerFat m) * Bpb.bytesPerSector m +
    32 * Bpb.rootEntryCount m + (n - 2) * getClusterSize m

/-- The bytes of the cluster `n`. -/
def clusterBytes (n : Nat) : List UInt8 := m.bytes (getFsBpb m + clusterStart m n) (getClusterSize m)

/-- The bytes of the clusters `xs`, in a row. -/
def fileBytes (xs : List Cluster) : List UInt8 := xs.flatMap fun x : Cluster => clusterBytes m x

/-- Where `get_cluster_offset` looks for the cluster `n`, in 32-bit arithmetic. -/
def clusterOffset (n : Nat) : Nat := clusterStart m n % 2 ^ 32

/-- The bytes that the kernel takes for the cluster `n`. -/
def clusterData (n : Nat) : List UInt8 := m.bytes (clusterOffset m n + getFsBpb m) (getClusterSize m)

/-- The bytes that the kernel takes for the clusters `xs`, in a row. -/
def pathData (xs : List Cluster) : List UInt8 := xs.flatMap fun x : Cluster => clusterData m x

/-- The volume is smaller than 4GB, and the parameter block, the table entries of the clusters `xs` and the
clusters themselves lie inside of it. -/
structure InVolume (volume : Nat) (xs : List Cluster) : Prop where
  lt : volume < 2 ^ 32
  block : 512 ≤ volume
  link : ∀ x ∈ xs, Bpb.reservedSectorCount m * Bpb.bytesPerSector m + 2 * x.val + 2 ≤ volume
  data : ∀ x ∈ xs, clusterStart m x + getClusterSize m ≤ volume

/-- `m'` holds the same image: the master boot record and a volume of `volume` bytes. -/
def SameImage (m' : Mem) (volume : Nat) : Prop := ∀ x, fsBase ≤ x → x < getFsBpb m + volume → m' x = m x

variable {m} {m' : Mem} {volume c e n : Nat} {x : Cluster} {xs ys : List Cluster}

/-! ## The parameter block -/

theorem fsBase_le_bpb (m : Mem) : fsBase ≤ getFsBpb m := Nat.le_add_right _ _

theorem getClusterSize_lt (m : Mem) : getClusterSize m < 2 ^ 24 := by
  have h₁ : Bpb.bytesPerSector m < 256 ^ 2 := Mem.read_lt m 2 _
  have h₂ : Bpb.sectorsPerCluster m < 256 ^ 1 := Mem.read_lt m 1 _
  calc Bpb.bytesPerSector m * Bpb.sectorsPerCluster m
      ≤ Bpb.bytesPerSector m * 256 := Nat.mul_le_mul_left _ (by omega)
    _ < 2 ^ 24 := by omega

theorem getClusterValue_lt (m : Mem) (c : Nat) : getClusterValue m c < 2 ^ 16 := Mem.read_lt m 2 _

/-- Both factors are 16-bit numbers, so nothing is lost. -/
theorem getFatTable_eq (m : Mem) :
    getFatTable m = getFsBpb m + Bpb.reservedSectorCount m * Bpb.bytesPerSector m := by
  have h₁ : Bpb.reservedSectorCount m < 256 ^ 2 := Mem.read_lt m 2 _
  have h₂ : Bpb.bytesPerSector m < 256 ^ 2 := Mem.read_lt m 2 _
  have hle : Bpb.reservedSectorCount m * Bpb.bytesPerSector m ≤ 65535 * 65535 :=
    Nat.mul_le_mul (by omega) (by omega)
  rw [getFatTable, Nat.mod_eq_of_lt (by omega)]

theorem getClusterOffset_eq (hc : 2 ≤ c) : getClusterOffset m c = .ok (clusterOffset m c) := by
  have hsum : Bpb.reservedSectorCount m * Bpb.bytesPerSector m +
      Bpb.fatCount m * Bpb.sectorsPerFat m * Bpb.bytesPerSector m + Bpb.rootEntryCount m * dirEntrySize +
      (c - 2) * (Bpb.sectorsPerCluster m * Bpb.bytesPerSector m) = clusterStart m c := by
    simp only [clusterStart, getClusterSize, dirEntrySize]
    ring
  simp only [getClusterOffset, ASSERT, require_of hc, ok_bind, hsum]
  rfl

theorem getClusterOffset_of_lt (hc : c < 2) : getClusterOffset m c = .error (.assert .getClusterOffset) := by
  simp [getClusterOffset, ASSERT, require, Nat.not_le.mpr hc]

/-! ## Bytes of clusters -/

@[simp] theorem length_clusterBytes (m : Mem) (n : Nat) : (clusterBytes m n).length = getClusterSize m := by
  simp [clusterBytes]

@[simp] theorem length_clusterData (m : Mem) (n : Nat) : (clusterData m n).length = getClusterSize m := by
  simp [clusterData]

@[simp] theorem length_pathData (m : Mem) (xs : List Cluster) :
    (pathData m xs).length = xs.length * getClusterSize m :=
  length_flatMap_of_eq fun x _ => length_clusterData m x

@[simp] theorem pathData_cons (m : Mem) (x : Cluster) (xs : List Cluster) :
    pathData m (x :: xs) = clusterData m x ++ pathData m xs := List.flatMap_cons

theorem drop_pathData (m : Mem) (xs : List Cluster) (q o : Nat) :
    (pathData m xs).drop (q * getClusterSize m + o) = (pathData m (xs.drop q)).drop o :=
  drop_flatMap (f := fun x : Cluster => clusterData m x) (fun x _ => length_clusterData m x) q o

/-- In a volume smaller than 4GB the kernel finds the clusters where they are. -/
theorem InVolume.clusterData_eq (h : InVolume m volume xs) (hx : x ∈ xs) : clusterData m x = clusterBytes m x := by
  have hdata := h.data x hx
  have hvolume := h.lt
  have hlt : clusterStart m x < 2 ^ 32 := by omega
  rw [clusterData, clusterBytes, clusterOffset, Nat.mod_eq_of_lt hlt, Nat.add_comm]

theorem InVolume.pathData_eq (h : InVolume m volume xs) : pathData m xs = fileBytes m xs :=
  List.flatMap_congr fun _ hx => h.clusterData_eq hx

/-! ## The same image -/

namespace SameImage

variable (h : SameImage m m' volume) (hblock : 512 ≤ volume)

include h

theorem same {a n : Nat} (ha : fsBase ≤ a) (hn : a + n ≤ getFsBpb m + volume) : Mem.Same m m' a n :=
  fun x hx hx' => h x (by omega) (by omega)

include hblock

theorem bpb : getFsBpb m' = getFsBpb m := by
  have harith : ∀ f b : Nat, f ≤ b → f + 0x1be + 8 + 4 ≤ b + volume := fun f b hle => by omega
  have hlba : Mem.Same m m' (fsBase + 0x1be + 8) 4 := h.same (by omega) (harith _ _ (fsBase_le_bpb m))
  rw [getFsBpb, getFsBpb, Mem.read_congr hlba]

theorem field {n i : Nat} (hn : i + n ≤ 512) :
    m'.read n (getFsBpb m' + i) = m.read n (getFsBpb m + i) := by
  have hle := fsBase_le_bpb m
  rw [h.bpb hblock]
  exact Mem.read_congr (h.same (by omega) (by omega))

theorem bytesPerSector : Bpb.bytesPerSector m' = Bpb.bytesPerSector m := h.field hblock (by omega)

theorem sectorsPerCluster : Bpb.sectorsPerCluster m' = Bpb.sectorsPerCluster m := h.field hblock (by omega)

theorem reservedSectorCount : Bpb.reservedSectorCount m' = Bpb.reservedSectorCount m := h.field hblock (by omega)

theorem fatCount : Bpb.fatCount m' = Bpb.fatCount m := h.field hblock (by omega)

theorem rootEntryCount : Bpb.rootEntryCount m' = Bpb.rootEntryCount m := h.field hblock (by omega)

theorem sectorsPerFat : Bpb.sectorsPerFat m' = Bpb.sectorsPerFat m := h.field hblock (by omega)

theorem clusterSize : getClusterSize m' = getClusterSize m := by
  rw [getClusterSize, h.bytesPerSector hblock, h.sectorsPerCluster hblock, getClusterSize]

theorem start (n : Nat) : clusterStart m' n = clusterStart m n := by
  simp only [clusterStart, h.reservedSectorCount hblock, h.fatCount hblock, h.sectorsPerFat hblock,
    h.bytesPerSector hblock, h.rootEntryCount hblock, h.clusterSize hblock]

theorem offset (n : Nat) : clusterOffset m' n = clusterOffset m n := by
  rw [clusterOffset, h.start hblock, clusterOffset]

theorem clusterValue
    (hc : Bpb.reservedSectorCount m * Bpb.bytesPerSector m + 2 * c + 2 ≤ volume) :
    getClusterValue m' c = getClusterValue m c := by
  have hle := fsBase_le_bpb m
  rw [getClusterValue, getClusterValue, getFatTable_eq, getFatTable_eq, h.bpb hblock,
    h.reservedSectorCount hblock, h.bytesPerSector hblock]
  exact Mem.read_congr (h.same (by omega) (by omega))

theorem clusterData (hn : clusterOffset m n + getClusterSize m ≤ volume) :
    ArmOs.clusterData m' n = ArmOs.clusterData m n := by
  have hle := fsBase_le_bpb m
  rw [ArmOs.clusterData, ArmOs.clusterData, h.bpb hblock, h.offset hblock, h.clusterSize hblock]
  exact Mem.bytes_congr (h.same (by omega) (by omega))

end SameImage

/-! ## Paths and chains -/

/-- Where a path of one more cluster starts, and how it goes on. -/
theorem Path.cons_iff : Path m c (x :: xs) e ↔ c = x ∧ Path m (getClusterValue m x) xs e := Iff.rfl

theorem Path.nil_iff : Path m c [] e ↔ c = e := Iff.rfl

instance Path.decidable (m : Mem) : (c : Nat) → (xs : List Cluster) → (e : Nat) → Decidable (Path m c xs e)
  | c, [], e => inferInstanceAs (Decidable (c = e))
  | c, x :: xs, e =>
      have := Path.decidable m (getClusterValue m x) xs e
      inferInstanceAs (Decidable (c = x ∧ Path m (getClusterValue m x) xs e))

/-- A path to a mark does not come back to one of its clusters. -/
theorem Path.nodup (h : Path m c xs e) (he : 0xfff7 ≤ e) : xs.Nodup := by
  refine Chain.nodup h (fun x => ?_) Subtype.val_injective
  have := x.2.2
  omega

theorem Path.length_le (h : Path m c xs e) (he : 0xfff7 ≤ e) : xs.length ≤ 0xfff7 := by
  have hlen := length_le_of_nodup ((h.nodup he).map Subtype.val_injective) (n := 0xfff7) fun i hi => by
    obtain ⟨x, -, rfl⟩ := List.mem_map.mp hi
    exact Nat.lt_succ_of_le x.2.2
  rwa [List.length_map] at hlen

namespace IsChain

theorem nodup (h : IsChain m c xs) : xs.Nodup := by
  obtain ⟨e, he, h⟩ := h
  exact h.nodup (by omega)

/-- The clusters of a chain fit side by side behind the directory, because they are different. -/
theorem length_mul_le_sub (h : IsChain m c xs) (hv : InVolume m volume xs) :
    xs.length * getClusterSize m ≤ volume - clusterStart m 2 := by
  cases Nat.eq_zero_or_pos (getClusterSize m) with
  | inl hzero => simp [hzero]
  | inr hpos =>
      have hnodup : (xs.map fun x => x.val - 2).Nodup := by
        refine h.nodup.map_on fun x _ y _ hxy => Subtype.ext ?_
        have := x.2.1
        have := y.2.1
        omega
      have hlt : ∀ i ∈ xs.map fun x => x.val - 2, i < (volume - clusterStart m 2) / getClusterSize m := by
        intro i hi
        obtain ⟨x, hx, rfl⟩ := List.mem_map.mp hi
        have hdata := hv.data x hx
        rw [Nat.lt_iff_add_one_le, Nat.le_div_iff_mul_le hpos, Nat.succ_mul]
        simp only [clusterStart] at hdata ⊢
        omega
      have hlen := length_le_of_nodup hnodup hlt
      rw [List.length_map, Nat.le_div_iff_mul_le hpos] at hlen
      exact hlen

theorem length_mul_le (h : IsChain m c xs) (hv : InVolume m volume xs) : xs.length * getClusterSize m ≤ volume :=
  (h.length_mul_le_sub hv).trans (Nat.sub_le _ _)

end IsChain

end ArmOs
