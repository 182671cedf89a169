import ArmOs.Fat.Lemmas.Chain

/-!
# Reading along a path of clusters

The two loops of `read_raw_data` on a path: the first one passes whole clusters, the second one copies them one
after the other. The destination is a buffer that the kernel can write, and writing there does not disturb the
path.
-/

namespace ArmOs

open Lib

/-- `m'` differs from `m` only among the `n` bytes at `dst`. -/
def SameOutside (m m' : Mem) (dst n : Nat) : Prop := ∀ x, x < dst ∨ dst + n ≤ x → m' x = m x

/-- The kernel reaches the `n` bytes at `va` at `dst`, whatever it writes there. -/
def Lands (m : Mem) (ttbr0 va n dst : Nat) : Prop :=
  ∀ m', SameOutside m m' dst n → ∀ o k, o + k ≤ n → k ≠ 0 → resolve m' ttbr0 (va + o) k = .ok (dst + o)

/-- The `n` bytes at `dst` are not bytes of the image. -/
def OffImage (m : Mem) (volume dst n : Nat) : Prop := dst + n ≤ fsBase ∨ getFsBpb m + volume ≤ dst

/-- Writing the `n` bytes at `dst` changes nothing that is read along the clusters `xs`. -/
structure Undisturbed (m : Mem) (dst n : Nat) (xs : List Cluster) : Prop where
  bpb : ∀ {m'}, SameOutside m m' dst n → getFsBpb m' = getFsBpb m
  clusterSize : ∀ {m'}, SameOutside m m' dst n → getClusterSize m' = getClusterSize m
  offset : ∀ {m'}, SameOutside m m' dst n → ∀ c, clusterOffset m' c = clusterOffset m c
  value : ∀ {m'}, SameOutside m m' dst n → ∀ x ∈ xs, getClusterValue m' x = getClusterValue m x
  data : ∀ {m'}, SameOutside m m' dst n → ∀ x ∈ xs, clusterData m' x = clusterData m x

variable {m m' m₀ : Mem} {volume ttbr0 c e i o n dst buffer size readSize : Nat} {bs : List UInt8}
  {x : Cluster} {xs ys : List Cluster}

namespace SameOutside

theorem refl (m : Mem) (dst n : Nat) : SameOutside m m dst n := fun _ _ => rfl

theorem trans {m'' : Mem} (h : SameOutside m m' dst n) (h' : SameOutside m' m'' dst n) :
    SameOutside m m'' dst n := fun x hx => (h' x hx).trans (h x hx)

theorem put (h : o + bs.length ≤ n) : SameOutside m (m.put (dst + o) bs) dst n := by
  intro x hx
  cases hx with
  | inl hx => exact Mem.put_apply_of_lt (by omega)
  | inr hx => exact Mem.put_apply_of_ge (by omega)

theorem sameImage (h : SameOutside m m' dst n) (hoff : OffImage m volume dst n) : SameImage m m' volume := by
  intro x hx hx'
  cases hoff with
  | inl hoff => exact h x (.inr (by omega))
  | inr hoff => exact h x (.inl (by omega))

end SameOutside

namespace Lands

theorem upper (m : Mem) (ttbr0 n : Nat) (h : kernelBase ≤ buffer) : Lands m ttbr0 buffer n buffer := by
  intro m' _ o k _ _
  rw [resolve, if_pos (Nat.le_add_right_of_le h)]

/-- `memcpy` to a part of the buffer that does not start inside the source. -/
theorem copyOut (h : Lands m₀ ttbr0 buffer n dst) (hm : SameOutside m₀ m dst n) {data k : Nat}
    (hout : data < dst + o → data + k ≤ dst + o) (hk : o + k ≤ n) :
    copyOut ttbr0 m (buffer + o) data k = .ok (m.put (dst + o) (m.bytes data k)) := by
  unfold ArmOs.copyOut
  split
  · rename_i hzero
    subst hzero
    simp [Mem.bytes]
  · rename_i hne
    rw [h m hm o k hk hne, ok_bind, memcpy_eq_copy hout, Mem.copy_eq_put]
    rfl

end Lands

namespace Undisturbed

theorem mono (h : Undisturbed m dst n xs) (hsub : ∀ x ∈ ys, x ∈ xs) : Undisturbed m dst n ys where
  bpb := h.bpb
  clusterSize := h.clusterSize
  offset := h.offset
  value := fun hm x hx => h.value hm x (hsub x hx)
  data := fun hm x hx => h.data hm x (hsub x hx)

theorem tail (h : Undisturbed m dst n (x :: xs)) : Undisturbed m dst n xs :=
  h.mono fun _ hy => List.mem_cons_of_mem x hy

/-- The bytes of a cluster are still where they were. -/
theorem bytes (h : Undisturbed m dst n xs) (hm : SameOutside m m' dst n) (hx : x ∈ xs) :
    m'.bytes (clusterOffset m' x + getFsBpb m) (getClusterSize m) = clusterData m x := by
  rw [← h.data hm x hx, clusterData, h.clusterSize hm, h.bpb hm]

/-- No part of the destination starts inside a cluster: writing its first byte would change the cluster. -/
theorem apart (h : Undisturbed m dst n xs) (hm : SameOutside m m' dst n) (hx : x ∈ xs) {k : Nat} (ho : o + k ≤ n)
    (hk : i + k ≤ getClusterSize m) (hstart : clusterOffset m' x + getFsBpb m + i < dst + o) :
    clusterOffset m' x + getFsBpb m + i + k ≤ dst + o := by
  by_contra hin
  obtain ⟨j, hj⟩ := Nat.exists_eq_add_of_lt hstart
  have hother : SameOutside m' (Function.update m' (dst + o) (m' (dst + o) + 1)) dst n := by
    intro y hy
    exact Function.update_of_ne (by omega) _ _
  have hbytes := (h.bytes hm hx).trans (h.bytes (hm.trans hother) hx).symm
  rw [h.offset (hm.trans hother), ← h.offset hm] at hbytes
  have hbyte := congrArg (fun bs => bs[i + (j + 1)]?) hbytes
  have hin : i + (j + 1) < getClusterSize m := by omega
  have hplace : clusterOffset m' x + getFsBpb m + (i + (j + 1)) = dst + o := by omega
  simp [Mem.bytes, hin, hplace] at hbyte

theorem apart_start (h : Undisturbed m dst n xs) (hm : SameOutside m m' dst n) (hx : x ∈ xs) {k : Nat} (ho : o + k ≤ n)
    (hk : k ≤ getClusterSize m) : clusterOffset m' x + getFsBpb m < dst + o → clusterOffset m' x + getFsBpb m + k ≤ dst + o :=
  h.apart (i := 0) hm hx ho (by omega)

/-- The clusters lie in a volume, and the destination is not part of the image. -/
theorem ofVolume (hv : InVolume m volume xs) (hoff : OffImage m volume dst n) : Undisturbed m dst n xs where
  bpb := fun hm => (hm.sameImage hoff).bpb hv.block
  clusterSize := fun hm => (hm.sameImage hoff).clusterSize hv.block
  offset := fun hm => (hm.sameImage hoff).offset hv.block
  value := fun hm x hx => (hm.sameImage hoff).clusterValue hv.block (hv.link x hx)
  data := fun hm x hx => by
    have hdata := hv.data x hx
    have hle : clusterOffset m x ≤ clusterStart m x := Nat.mod_le _ _
    exact (hm.sameImage hoff).clusterData hv.block (by omega)

/-- The destination is below the image. Then it does not matter how large the volume is. -/
theorem below (h : dst + n ≤ fsBase) (xs : List Cluster) : Undisturbed m dst n xs := by
  have himage : ∀ {m'} volume, SameOutside m m' dst n → SameImage m m' volume :=
    fun volume hm => hm.sameImage (.inl h)
  exact {
    bpb := fun hm => (himage 512 hm).bpb (Nat.le_refl _)
    clusterSize := fun hm => (himage 512 hm).clusterSize (Nat.le_refl _)
    offset := fun hm => (himage 512 hm).offset (Nat.le_refl _)
    value := fun hm _ _ => (himage (512 + _) hm).clusterValue (Nat.le_add_right _ _) (Nat.le_add_left _ _)
    data := fun hm _ _ => (himage (512 + _) hm).clusterData (Nat.le_add_right _ _) (Nat.le_add_left _ _) }

end Undisturbed

/-! ## The first loop -/

/-- A step of the loop reads the number of the next cluster and checks it. -/
theorem skipClusters_succ (h : getClusterValue m c < 0xfff7) :
    skipClusters m (n + 1) c = skipClusters m n (getClusterValue m c) := by
  simp only [skipClusters, ASSERT, require_of h, ok_bind]

theorem skipClusters_succ_of_ge (h : 0xfff7 ≤ getClusterValue m c) :
    skipClusters m (n + 1) c = .error (.assert .readRawData) := by
  simp [skipClusters, ASSERT, require, Nat.not_lt.mpr h]

/-- The loop passes clusters of the path, up to the last one. -/
theorem Path.skipClusters (h : Path m c xs e) (hn : n < xs.length) :
    ∃ c', skipClusters m n c = .ok c' ∧ Path m c' (xs.drop n) e := by
  induction n generalizing c xs with
  | zero => exact ⟨c, rfl, h⟩
  | succ n ih =>
      cases xs with
      | nil => cases hn
      | cons x xs =>
          obtain ⟨rfl, hrest⟩ := Path.cons_iff.mp h
          have hn : n < xs.length := Nat.lt_of_succ_lt_succ hn
          obtain ⟨y, ys, rfl⟩ := List.exists_cons_of_length_pos (Nat.zero_lt_of_lt hn)
          have hlt : getClusterValue m x < 0xfff7 := by
            rw [(Path.cons_iff.mp hrest).1]
            exact Nat.lt_succ_of_le y.2.2
          obtain ⟨c', hc', hpath⟩ := ih hrest hn
          exact ⟨c', (skipClusters_succ hlt).trans hc', hpath⟩

/-- The loop does not get past an end mark. -/
theorem Path.skipClusters_length (h : Path m c xs e) (he : 0xfff7 ≤ e) (hne : xs ≠ []) :
    ArmOs.skipClusters m xs.length c = .error (.assert .readRawData) := by
  induction xs generalizing c with
  | nil => exact absurd rfl hne
  | cons x xs ih =>
      obtain ⟨rfl, hrest⟩ := Path.cons_iff.mp h
      cases xs with
      | nil => exact skipClusters_succ_of_ge (by rw [Path.nil_iff.mp hrest]; exact he)
      | cons y ys =>
          have hlt : getClusterValue m x < 0xfff7 := by
            rw [(Path.cons_iff.mp hrest).1]
            exact Nat.lt_succ_of_le y.2.2
          exact (skipClusters_succ hlt).trans (ih hrest (List.cons_ne_nil y ys))

/-! ## The second loop -/

theorem readLoop_done (h : size ≤ readSize) (cs bpb fuel : Nat) :
    readLoop ttbr0 cs bpb size (fuel + 1) c buffer readSize m = .ok (readSize, m) := by
  have hnot : ¬(readSize < size ∧ c < 0xfff7) := by omega
  rw [readLoop, if_neg hnot]

theorem readLoop_end (h : 0xfff7 ≤ c) (cs bpb fuel : Nat) :
    readLoop ttbr0 cs bpb size (fuel + 1) c buffer readSize m = .ok (readSize, m) := by
  have hnot : ¬(readSize < size ∧ c < 0xfff7) := by omega
  rw [readLoop, if_neg hnot]

/-- The last round of the loop: the wanted bytes end in this cluster. -/
theorem readLoop_last (hl : Lands m₀ ttbr0 buffer n dst) (hu : Undisturbed m₀ dst n (x :: xs))
    (hm : SameOutside m₀ m dst n) (hmore : readSize < size) (hn : size ≤ n)
    (hlt : readSize + getClusterSize m₀ < 2 ^ 32) (hend : size ≤ readSize + getClusterSize m₀) (fuel : Nat) :
    readLoop ttbr0 (getClusterSize m₀) (getFsBpb m₀) size (fuel + 1) x (buffer + readSize) readSize m =
      .ok (size, m.put (dst + readSize) ((clusterData m₀ x).take (size - readSize))) := by
  have hbytes : (clusterData m₀ x).take (size - readSize) =
      m.bytes (clusterOffset m x + getFsBpb m₀) (size - readSize) := by
    rw [← hu.bytes hm List.mem_cons_self, Mem.take_bytes, Nat.min_eq_left (by omega)]
  rw [readLoop, if_pos ⟨hmore, Nat.lt_succ_of_le x.2.2⟩, getClusterOffset_eq x.2.1, ok_bind]
  simp only [Nat.mod_eq_of_lt hlt, if_pos hend]
  rw [hl.copyOut hm (hu.apart_start hm List.mem_cons_self (by omega) (by omega)) (by omega), ok_bind, hbytes]
  rfl

/-- Any other round copies the whole cluster. -/
theorem readLoop_next (hl : Lands m₀ ttbr0 buffer n dst) (hu : Undisturbed m₀ dst n (x :: xs))
    (hm : SameOutside m₀ m dst n) (hn : readSize + getClusterSize m₀ ≤ n)
    (hlt : readSize + getClusterSize m₀ < 2 ^ 32) (hgo : readSize + getClusterSize m₀ < size) (fuel : Nat) :
    readLoop ttbr0 (getClusterSize m₀) (getFsBpb m₀) size (fuel + 1) x (buffer + readSize) readSize m =
      readLoop ttbr0 (getClusterSize m₀) (getFsBpb m₀) size fuel (getClusterValue m₀ x)
        (buffer + (readSize + getClusterSize m₀)) (readSize + getClusterSize m₀) (m.put (dst + readSize) (clusterData m₀ x)) := by
  have hput : SameOutside m₀ (m.put (dst + readSize) (clusterData m₀ x)) dst n :=
    hm.trans (SameOutside.put (by simpa using hn))
  rw [readLoop, if_pos ⟨by omega, Nat.lt_succ_of_le x.2.2⟩, getClusterOffset_eq x.2.1, ok_bind]
  simp only [Nat.mod_eq_of_lt hlt, if_neg (Nat.not_le.mpr hgo)]
  rw [hl.copyOut hm (hu.apart_start hm List.mem_cons_self hn (Nat.le_refl _)) hn, ok_bind, hu.bytes hm List.mem_cons_self, hu.value hput x List.mem_cons_self, Nat.add_assoc]

/-- The loop copies the clusters of a path that are still wanted, and it stops early if the path ends in a mark
before that. The induction is on the clusters left. -/
theorem readLoop_path (readSize size : Nat) (hl : Lands m₀ ttbr0 buffer n dst) (hu : Undisturbed m₀ dst n xs)
    (hm : SameOutside m₀ m dst n) (hp : Path m₀ c xs e) (hle : readSize ≤ size)
    (hn : min size (readSize + xs.length * getClusterSize m₀) ≤ n)
    (hend : size ≤ readSize + xs.length * getClusterSize m₀ ∨ 0xfff7 ≤ e)
    (hlt : readSize + xs.length * getClusterSize m₀ < 2 ^ 32) {fuel : Nat} (hfuel : xs.length < fuel) :
    readLoop ttbr0 (getClusterSize m₀) (getFsBpb m₀) size fuel c (buffer + readSize) readSize m =
      .ok (min size (readSize + xs.length * getClusterSize m₀),
        m.put (dst + readSize) ((pathData m₀ xs).take (size - readSize))) := by
  induction xs generalizing c m readSize fuel with
  | nil =>
      obtain ⟨fuel, rfl⟩ := Nat.exists_eq_add_of_lt hfuel
      have hstop : readLoop ttbr0 (getClusterSize m₀) (getFsBpb m₀) size (fuel + 1) c (buffer + readSize) readSize m =
          .ok (readSize, m) := by
        cases hend with
        | inl hend => exact readLoop_done (by simpa using hend) _ _ fuel
        | inr he => exact readLoop_end (by rw [Path.nil_iff.mp hp]; exact he) _ _ fuel
      rw [List.length_nil, Nat.zero_add, hstop]
      simp [pathData, Nat.min_eq_right hle]
  | cons x xs ih =>
      obtain ⟨fuel, rfl⟩ := Nat.exists_eq_add_of_lt hfuel
      rw [List.length_cons, Nat.succ_mul] at hn hlt hend ⊢
      cases Nat.eq_or_lt_of_le hle with
      | inl heq =>
          subst heq
          rw [readLoop_done (Nat.le_refl _), Nat.min_eq_left (Nat.le_add_right _ _)]
          simp
      | inr hmore =>
          obtain ⟨rfl, hrest⟩ := Path.cons_iff.mp hp
          have hlen : (clusterData m₀ x).length = getClusterSize m₀ := length_clusterData m₀ x
          cases Nat.lt_or_ge (readSize + getClusterSize m₀) size with
          | inl hgo =>
              have hput : SameOutside m₀ (m.put (dst + readSize) (clusterData m₀ x)) dst n :=
                hm.trans (SameOutside.put (by omega))
              have htake : (pathData m₀ (x :: xs)).take (size - readSize) =
                  clusterData m₀ x ++ (pathData m₀ xs).take (size - (readSize + getClusterSize m₀)) := by
                rw [pathData_cons, List.take_append, List.take_of_length_le (by omega), hlen, Nat.sub_sub]
              have hloop := ih (readSize + getClusterSize m₀) hu.tail hput hrest (by omega) (by omega) (by omega)
                (by omega) (show xs.length < xs.length + 1 + fuel by omega)
              rw [readLoop_next hl hu hm (by omega) (by omega) hgo, hloop, htake, Mem.put_append, hlen,
                Nat.add_assoc readSize, Nat.add_comm (getClusterSize m₀), Nat.add_assoc dst]
          | inr hlast =>
              have htake : (pathData m₀ (x :: xs)).take (size - readSize) =
                  (clusterData m₀ x).take (size - readSize) := by
                rw [pathData_cons, List.take_append_of_le_length (by omega)]
              have hmin : min size (readSize + (xs.length * getClusterSize m₀ + getClusterSize m₀)) = size :=
                Nat.min_eq_left (by omega)
              rw [hmin] at hn ⊢
              rw [readLoop_last hl hu hm hmore hn (by omega) hlast, htake]

/-! ## The whole read -/

/-- What `read_raw_data` does after its first loop, at `offset` in the cluster `index`. -/
def readFrom (ttbr0 index offset buffer size : Nat) (m : Mem) : Except Stop (Nat × Mem) :=
  if offset ≠ 0 then do
    let readSize := if (offset + size) % 2 ^ 32 ≤ getClusterSize m then size else getClusterSize m - offset
    let clusterOffset ← getClusterOffset m index
    let m' ← copyOut ttbr0 m buffer (clusterOffset + getFsBpb m + offset) readSize
    readLoop ttbr0 (getClusterSize m) (getFsBpb m) size readFuel (getClusterValue m' index) (buffer + readSize)
      readSize m'
  else
    readLoop ttbr0 (getClusterSize m) (getFsBpb m) size readFuel index buffer 0 m

theorem readRawData_eq (ttbr0 c buffer position size : Nat) (m : Mem) :
    readRawData ttbr0 c buffer position size m = (do
      let index ← skipClusters m (position / getClusterSize m) c
      readFrom ttbr0 index (position % getClusterSize m) buffer size m) := rfl

theorem length_lt_readFuel (hcs : 0 < getClusterSize m) (h : xs.length * getClusterSize m < 2 ^ 32) :
    xs.length < readFuel := by
  have := Nat.le_mul_of_pos_right xs.length hcs
  simp only [readFuel]
  omega

/-- The read along a path from `offset` in its first cluster on: the end of that cluster, then the loop. -/
theorem readFrom_path (hp : Path m c xs e) (hu : Undisturbed m dst size xs) (hl : Lands m ttbr0 buffer size dst)
    (hlt : xs.length * getClusterSize m < 2 ^ 32) (offset : Nat) (hle : offset + size ≤ xs.length * getClusterSize m)
    (hmod : offset < getClusterSize m) (hne : xs ≠ []) :
    readFrom ttbr0 c offset buffer size m = .ok (size, m.put dst (((pathData m xs).drop offset).take size)) := by
  have hfuel := length_lt_readFuel (Nat.zero_lt_of_lt hmod) hlt
  have hrefl := SameOutside.refl m dst size
  unfold readFrom
  split
  · cases xs with
    | nil => exact absurd rfl hne
    | cons x xs =>
        obtain ⟨rfl, hrest⟩ := Path.cons_iff.mp hp
        rw [List.length_cons, Nat.succ_mul] at hlt hle
        have hlen : (clusterData m x).length = getClusterSize m := length_clusterData m x
        have hhead : (clusterData m x).drop offset =
            m.bytes (clusterOffset m x + getFsBpb m + offset) (getClusterSize m - offset) := by
          rw [clusterData, Mem.drop_bytes m _ (by omega)]
        have hbytes : (pathData m (x :: xs)).drop offset = (clusterData m x).drop offset ++ pathData m xs := by
          rw [pathData_cons, List.drop_append_of_le_length (by omega)]
        rw [getClusterOffset_eq x.2.1, hbytes, hhead]
        simp only [ok_bind, Nat.mod_eq_of_lt (show offset + size < 2 ^ 32 by omega)]
        have hcopy : ∀ {k}, k ≤ size → offset + k ≤ getClusterSize m →
            copyOut ttbr0 m buffer (clusterOffset m x + getFsBpb m + offset) k =
              .ok (m.put dst (m.bytes (clusterOffset m x + getFsBpb m + offset) k)) := by
          intro k hk hin
          have hfit : 0 + k ≤ size := by omega
          exact hl.copyOut (o := 0) hrefl (hu.apart hrefl List.mem_cons_self hfit hin) hfit
        split
        · -- the wanted bytes end in the first cluster
          rename_i hend
          rw [hcopy (Nat.le_refl size) hend, ok_bind, readFuel, readLoop_done (Nat.le_refl size),
            List.take_append_of_le_length (by simp; omega), Mem.take_bytes, Nat.min_eq_left (by omega)]
        · rename_i hgo
          have hput : SameOutside m
              (m.put dst (m.bytes (clusterOffset m x + getFsBpb m + offset) (getClusterSize m - offset))) dst size :=
            SameOutside.put (o := 0) (by simp; omega)
          have htake : ∀ bs : List UInt8, bs.length = getClusterSize m - offset →
              (bs ++ pathData m xs).take size = bs ++ (pathData m xs).take (size - (getClusterSize m - offset)) := by
            intro bs hbs
            rw [List.take_append, List.take_of_length_le (by omega), hbs]
          have hloop := readLoop_path (getClusterSize m - offset) size hl hu.tail hput hrest
            (by omega) (by omega) (.inl (by omega)) (by omega) (Nat.lt_of_succ_lt hfuel)
          rw [Nat.min_eq_left (by omega)] at hloop
          rw [hcopy (by omega) (by omega), ok_bind, hu.value hput x List.mem_cons_self, hloop,
            htake _ (Mem.length_bytes _ _ _), Mem.put_append, Mem.length_bytes]
  · rename_i hzero
    have hzero : offset = 0 := Decidable.not_not.mp hzero
    subst hzero
    have hread := readLoop_path 0 size hl hu hrefl hp (Nat.zero_le size) (by omega) (.inl (by omega))
      (by omega) hfuel
    rw [Nat.min_eq_left (by omega)] at hread
    simpa using hread

/-- `read_raw_data` along a path that covers the wanted bytes, from inside of it. -/
theorem readRawData_path (hp : Path m c xs e) (hu : Undisturbed m dst size xs)
    (hl : Lands m ttbr0 buffer size dst) (hvolume : xs.length * getClusterSize m < 2 ^ 32) {position : Nat}
    (hlt : position < xs.length * getClusterSize m) (hle : position + size ≤ xs.length * getClusterSize m) :
    readRawData ttbr0 c buffer position size m =
      .ok (size, m.put dst (((pathData m xs).drop position).take size)) := by
  have hcs : 0 < getClusterSize m := Nat.pos_of_mul_pos_left (Nat.zero_lt_of_lt hlt)
  have hcount := (Nat.div_lt_iff_lt_mul hcs).mpr hlt
  have hposition := Nat.div_add_mod' position (getClusterSize m)
  obtain ⟨c', hskip, hpath⟩ := hp.skipClusters hcount
  have hlen : (xs.drop (position / getClusterSize m)).length * getClusterSize m +
      position / getClusterSize m * getClusterSize m = xs.length * getClusterSize m := by
    rw [List.length_drop, ← Nat.add_mul, Nat.sub_add_cancel (by omega)]
  have hne : xs.drop (position / getClusterSize m) ≠ [] := by
    rw [Ne, List.drop_eq_nil_iff]
    omega
  have hread := readFrom_path hpath (hu.mono fun x hx => List.mem_of_mem_drop hx) hl (by omega)
    (position % getClusterSize m) (by omega) (Nat.mod_lt position hcs) hne
  rw [readRawData_eq, hskip, ok_bind, hread, ← drop_pathData, hposition]

/-- `read_raw_data` from the beginning of a path on that ends in a mark too early, or not. -/
theorem readRawData_short (size : Nat) (hp : Path m c xs e) (he : 0xfff7 ≤ e)
    (hu : Undisturbed m dst n xs) (hl : Lands m ttbr0 buffer n dst)
    (hn : min size (xs.length * getClusterSize m) ≤ n) (hlt : xs.length * getClusterSize m < 2 ^ 32) :
    readRawData ttbr0 c buffer 0 size m =
      .ok (min size (xs.length * getClusterSize m), m.put dst ((pathData m xs).take size)) := by
  have hfuel : xs.length < readFuel := Nat.lt_of_le_of_lt (hp.length_le he) (by decide)
  have hread := readLoop_path 0 size hl hu (SameOutside.refl m dst n) hp (Nat.zero_le size) (by omega)
    (.inr he) (by omega) hfuel
  rw [readRawData_eq, Nat.zero_div, Nat.zero_mod, skipClusters, ok_bind, readFrom, if_neg (by simp)]
  simpa using hread

end ArmOs
