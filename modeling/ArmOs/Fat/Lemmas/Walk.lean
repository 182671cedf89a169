import ArmOs.Fat.Lemmas.Read
import ArmOs.Lib.Iterate

/-!
# Following any table

What the loops of `read_raw_data` do on a table that need not be well formed: the clusters they come to are the
iterates of the table, and the second loop goes on until one of them is not a cluster or the 32-bit counter
reaches the wanted size.
-/

namespace ArmOs

open Lib

/-- The number that the table gives after `j` steps from `c`. -/
def link (m : Mem) (c j : Nat) : Nat := (getClusterValue m)^[j] c

/-- The table, with an entry for every 16-bit number, lies in the first `volume` bytes of the volume. -/
def TableWithin (m : Mem) (volume : Nat) : Prop :=
  Bpb.reservedSectorCount m * Bpb.bytesPerSector m + 2 ^ 17 ≤ volume

/-- The function returns or fails an `ASSERT`. -/
def Ends {α : Type} (x : Except Stop α) : Prop := (∃ a, x = .ok a) ∨ ∃ site, x = .error (.assert site)

/-- The round of the second loop at `index` and `readSize` is the last one. -/
def IsLast (m : Mem) (size index readSize : Nat) : Prop :=
  size ≤ readSize ∨ 0xfff7 ≤ index ∨ index < 2 ∨ size ≤ (readSize + getClusterSize m) % 2 ^ 32

variable {m m' m₀ : Mem} {volume ttbr0 c i j o n buffer size readSize position index fuel : Nat}

theorem link_succ (m : Mem) (c j : Nat) : link m c (j + 1) = getClusterValue m (link m c j) :=
  Function.iterate_succ_apply' _ _ _

theorem link_value (m : Mem) (c j : Nat) : link m (getClusterValue m c) j = link m c (j + 1) := rfl

theorem link_link (m : Mem) (c i j : Nat) : link m (link m c i) j = link m c (i + j) := by
  rw [link, link, link, Nat.add_comm, Function.iterate_add_apply]

/-- A number that the chain comes to is one it comes to early. -/
theorem exists_link_le {P : Nat → Prop} (h : ∃ j, P (link m c j)) : ∃ j ≤ 2 ^ 16, P (link m c j) :=
  exists_iterate_le (getClusterValue_lt m) h

namespace TableWithin

variable (h : TableWithin m volume)

include h

theorem block : 512 ≤ volume := by
  unfold TableWithin at h
  omega

theorem value (hm : SameImage m m' volume) (hc : c < 2 ^ 16) : getClusterValue m' c = getClusterValue m c := by
  refine hm.clusterValue h.block ?_
  unfold TableWithin at h
  omega

end TableWithin

/-- A copy to a buffer behind the volume succeeds and leaves the image as it is. -/
theorem SameImage.copyOut (hm : SameImage m m' volume) (hbuffer : getFsBpb m + volume ≤ buffer)
    (ttbr0 data n : Nat) :
    ∃ m'', ArmOs.copyOut ttbr0 m' buffer data n = .ok m'' ∧ SameImage m m'' volume := by
  have hupper : kernelBase ≤ buffer :=
    (Nat.le_trans (by decide) (fsBase_le_bpb m)).trans (Nat.le_of_add_right_le hbuffer)
  unfold ArmOs.copyOut
  split
  · exact ⟨m', rfl, hm⟩
  · rw [resolve, if_pos hupper]
    refine ⟨_, rfl, fun x hx hx' => ?_⟩
    rw [← hm x hx hx']
    exact memcpy_of_lt (by omega)

/-! ## The first loop -/

/-- The loop passes `n` clusters if the table gives no end mark, and fails its `ASSERT` otherwise. -/
theorem skipClusters_link (h : ∀ i, 0 < i → i ≤ n → link m c i < 0xfff7) : skipClusters m n c = .ok (link m c n) := by
  induction n generalizing c with
  | zero => rfl
  | succ n ih =>
      rw [skipClusters_succ (h 1 Nat.one_pos (Nat.le_add_left 1 n)),
        ih fun i hi hin => h (i + 1) (Nat.succ_pos i) (Nat.succ_le_succ hin)]
      rfl

theorem skipClusters_mark (hi : 0 < i) (hin : i ≤ n) (h : 0xfff7 ≤ link m c i) :
    skipClusters m n c = .error (.assert .readRawData) := by
  induction n generalizing c i with
  | zero => omega
  | succ n ih =>
      cases Nat.lt_or_ge (getClusterValue m c) 0xfff7 with
      | inr hge => exact skipClusters_succ_of_ge hge
      | inl hlt =>
          rw [skipClusters_succ hlt]
          cases i with
          | zero => omega
          | succ i =>
              cases i with
              | zero => exact absurd h (Nat.not_le.mpr hlt)
              | succ i => exact ih (Nat.succ_pos i) (by omega) h

/-! ## The second loop -/

theorem readLoop_isLast (hm : SameImage m₀ m volume)
    (hbuffer : getFsBpb m₀ + volume ≤ buffer) (h : IsLast m₀ size index readSize) :
    Ends (readLoop ttbr0 (getClusterSize m₀) (getFsBpb m₀) size (fuel + 1) index buffer readSize m) := by
  by_cases hgo : readSize < size ∧ index < 0xfff7
  · rw [readLoop, if_pos hgo]
    cases Nat.lt_or_ge index 2 with
    | inl hlt =>
        rw [getClusterOffset_of_lt hlt]
        exact .inr ⟨_, rfl⟩
    | inr hge =>
        have hend : size ≤ (readSize + getClusterSize m₀) % 2 ^ 32 := by
          unfold IsLast at h
          omega
        obtain ⟨m', hcopy, -⟩ := hm.copyOut hbuffer ttbr0 (clusterOffset m index + getFsBpb m₀)
          (size - readSize)
        rw [getClusterOffset_eq hge]
        simp only [ok_bind, if_pos hend, hcopy]
        exact .inl ⟨_, rfl⟩
  · rw [readLoop, if_neg hgo]
    exact .inl ⟨_, rfl⟩

/-- A round that is not the last one leads to the next cluster. -/
theorem readLoop_round (ttbr0 fuel : Nat) (ht : TableWithin m₀ volume) (hm : SameImage m₀ m volume)
    (hbuffer : getFsBpb m₀ + volume ≤ buffer) (h : ¬IsLast m₀ size index readSize) :
    ∃ m', SameImage m₀ m' volume ∧
      readLoop ttbr0 (getClusterSize m₀) (getFsBpb m₀) size (fuel + 1) index buffer readSize m =
      readLoop ttbr0 (getClusterSize m₀) (getFsBpb m₀) size fuel (getClusterValue m₀ index) (buffer + getClusterSize m₀)
        ((readSize + getClusterSize m₀) % 2 ^ 32) m' := by
  unfold IsLast at h
  obtain ⟨hmore, hindex, hcluster, hgo⟩ : readSize < size ∧ index < 0xfff7 ∧ 2 ≤ index ∧
      ¬size ≤ (readSize + getClusterSize m₀) % 2 ^ 32 := by omega
  obtain ⟨m', hcopy, hm'⟩ := hm.copyOut hbuffer ttbr0 (clusterOffset m index + getFsBpb m₀)
    (getClusterSize m₀)
  refine ⟨m', hm', ?_⟩
  rw [readLoop, if_pos ⟨hmore, hindex⟩, getClusterOffset_eq hcluster, ok_bind]
  simp only [if_neg hgo, hcopy, ok_bind, ht.value hm' (show index < 2 ^ 16 by omega)]

theorem counter_succ (m : Mem) (readSize j : Nat) :
    ((readSize + getClusterSize m) % 2 ^ 32 + j * getClusterSize m) % 2 ^ 32 =
      (readSize + (j + 1) * getClusterSize m) % 2 ^ 32 := by
  rw [Nat.mod_add_mod, Nat.succ_mul, Nat.add_assoc, Nat.add_comm (getClusterSize m)]

/-- The loop ends if the fuel lasts until its last round. -/
theorem readLoop_ends (ht : TableWithin m₀ volume) (hm : SameImage m₀ m volume)
    (hbuffer : getFsBpb m₀ + volume ≤ buffer) (hr : readSize < 2 ^ 32) (hj : j < fuel)
    (h : IsLast m₀ size (link m₀ index j) ((readSize + j * getClusterSize m₀) % 2 ^ 32)) :
    Ends (readLoop ttbr0 (getClusterSize m₀) (getFsBpb m₀) size fuel index buffer readSize m) := by
  induction j generalizing m index buffer readSize fuel with
  | zero =>
      obtain ⟨fuel, rfl⟩ := Nat.exists_eq_add_of_lt hj
      rw [Nat.zero_mul, Nat.add_zero, Nat.mod_eq_of_lt hr] at h
      exact readLoop_isLast hm hbuffer h
  | succ j ih =>
      obtain ⟨fuel, rfl⟩ := Nat.exists_eq_add_of_lt (Nat.zero_lt_of_lt hj)
      by_cases hlast : IsLast m₀ size index readSize
      · exact readLoop_isLast hm hbuffer hlast
      · obtain ⟨m', hm', hround⟩ := readLoop_round ttbr0 (0 + fuel) ht hm hbuffer hlast
        rw [hround]
        refine ih hm' (Nat.le_add_right_of_le hbuffer) (Nat.mod_lt _ (by decide)) (by omega) ?_
        rw [link_value, counter_succ]
        exact h

/-- The loop goes round for ever if there is no last round. -/
theorem readLoop_hang (ht : TableWithin m₀ volume) (hm : SameImage m₀ m volume)
    (hbuffer : getFsBpb m₀ + volume ≤ buffer) (hr : readSize < 2 ^ 32)
    (h : ∀ j, ¬IsLast m₀ size (link m₀ index j) ((readSize + j * getClusterSize m₀) % 2 ^ 32)) :
    readLoop ttbr0 (getClusterSize m₀) (getFsBpb m₀) size fuel index buffer readSize m = .error .hang := by
  induction fuel generalizing m index buffer readSize with
  | zero => rfl
  | succ fuel ih =>
      have hfirst : ¬IsLast m₀ size index readSize := by
        have := h 0
        rwa [Nat.zero_mul, Nat.add_zero, Nat.mod_eq_of_lt hr] at this
      obtain ⟨m', hm', hround⟩ := readLoop_round ttbr0 fuel ht hm hbuffer hfirst
      rw [hround]
      refine ih hm' (Nat.le_add_right_of_le hbuffer) (Nat.mod_lt _ (by decide)) fun j => ?_
      rw [link_value, counter_succ]
      exact h (j + 1)

theorem not_ends_hang {α : Type} : ¬Ends (.error .hang : Except Stop α) := by
  rintro (⟨a, ha⟩ | ⟨site, hsite⟩)
  · cases ha
  · cases hsite

/-- How far the counter of the loop gets, when it starts at `readSize`. -/
def counterMax (m : Mem) (readSize : Nat) : Nat :=
  2 ^ 32 - Nat.gcd (getClusterSize m) (2 ^ 32) + readSize % Nat.gcd (getClusterSize m) (2 ^ 32)

/-- The second loop ends exactly if the chain leaves the clusters or the counter can get as far as `size`. -/
theorem readLoop_ends_iff (ht : TableWithin m volume) (hbuffer : getFsBpb m + volume ≤ buffer)
    (hm : SameImage m m' volume) (hr : readSize < 2 ^ 32) :
    Ends (readLoop ttbr0 (getClusterSize m) (getFsBpb m) size readFuel index buffer readSize m') ↔
      size ≤ readSize ∨ (∃ j, 0xfff7 ≤ link m index j ∨ link m index j < 2) ∨ size ≤ counterMax m readSize := by
  constructor
  · intro hends
    by_contra hnot
    obtain ⟨hmore, hlink, hcounter⟩ := not_or.mp hnot |>.imp_right not_or.mp
    refine not_ends_hang (readLoop_hang ht hm hbuffer hr (fun j hlast => ?_) ▸ hends)
    have hle : ∀ j, (readSize + j * getClusterSize m) % 2 ^ 32 ≤ counterMax m readSize :=
      fun j => add_mul_mod_le (by decide) j
    rcases hlast with hs | hmark | hlow | hs
    · exact hcounter (hs.trans (hle j))
    · exact hlink ⟨j, .inl hmark⟩
    · exact hlink ⟨j, .inr hlow⟩
    · rw [Nat.mod_add_mod, Nat.add_assoc, ← Nat.succ_mul] at hs
      exact hcounter (hs.trans (hle (j + 1)))
  · intro h
    rcases h with hs | hlink | hs
    · refine readLoop_ends (j := 0) ht hm hbuffer hr (by decide) (.inl ?_)
      rwa [Nat.zero_mul, Nat.add_zero, Nat.mod_eq_of_lt hr]
    · obtain ⟨j, hj, hlink⟩ := exists_link_le (P := fun x => 0xfff7 ≤ x ∨ x < 2) hlink
      refine readLoop_ends (j := j) ht hm hbuffer hr (by simp only [readFuel]; omega) ?_
      rcases hlink with hmark | hlow
      · exact .inr (.inl hmark)
      · exact .inr (.inr (.inl hlow))
    · obtain ⟨j, hj, hs⟩ := exists_le_add_mul_mod (by decide) hs
      refine readLoop_ends (j := j) ht hm hbuffer hr (by simp only [readFuel]; omega) (.inr (.inr (.inr ?_)))
      rw [Nat.mod_add_mod, Nat.add_assoc, ← Nat.succ_mul]
      exact hs

/-! ## The whole read -/

/-- The chain from `c` leaves the clusters, where a read at `position` notices it: it comes to a mark after its
first cluster (or starts with one, and `position` is 0), or to a number below 2 that is not passed over. -/
def ChainLeaves (m : Mem) (c position : Nat) : Prop :=
  (∃ j, (0 < j ∨ position = 0) ∧ 0xfff7 ≤ link m c j) ∨
    ∃ j, position / getClusterSize m ≤ j ∧ link m c j < 2

/-- The read begins inside of a cluster and the 32-bit sum says that it ends there. -/
def WithinCluster (m : Mem) (position size : Nat) : Prop :=
  position % getClusterSize m ≠ 0 ∧ (position % getClusterSize m + size) % 2 ^ 32 ≤ getClusterSize m

/-- The chain leaves the clusters, where a read at `position` notices it, with its number `k` or before. -/
def ChainStops (m : Mem) (c position k : Nat) : Prop :=
  (∃ j ≤ k, (0 < j ∨ position = 0) ∧ 0xfff7 ≤ link m c j) ∨ ∃ j ≤ k, position / getClusterSize m ≤ j ∧ link m c j < 2

/-- After the first loop, and a head if there is one, the chain has come to its number `n`, and it can only leave
the clusters from there on. -/
theorem leaves_iff (Q : Nat → Prop) (hpass : ∀ i, 0 < i → i ≤ position / getClusterSize m → link m c i < 0xfff7)
    (hn : position % getClusterSize m = 0 ∧ n = position / getClusterSize m ∨
      position % getClusterSize m ≠ 0 ∧ n = position / getClusterSize m + 1 ∧
        2 ≤ link m c (position / getClusterSize m)) :
    ((∃ j, Q j ∧ (0 < j ∨ position = 0) ∧ 0xfff7 ≤ link m c j) ∨
      ∃ j, Q j ∧ position / getClusterSize m ≤ j ∧ link m c j < 2) ↔
      ∃ j, Q (n + j) ∧ (0xfff7 ≤ link m (link m c n) j ∨ link m (link m c n) j < 2) := by
  have hposition := Nat.div_add_mod' position (getClusterSize m)
  constructor
  · rintro (⟨j, hQ, hj, hmark⟩ | ⟨j, hQ, hj, hlow⟩)
    · have hle : n ≤ j := by
        refine Nat.not_lt.mp fun hlt => ?_
        have hpos : 0 < j := by
          rcases hj with hj | rfl
          · exact hj
          · rw [Nat.zero_div, Nat.zero_mod] at hn
            omega
        exact absurd hmark (Nat.not_le.mpr (hpass j hpos (by omega)))
      obtain ⟨k, rfl⟩ := Nat.exists_eq_add_of_le hle
      exact ⟨k, hQ, .inl (by rwa [link_link])⟩
    · have hle : n ≤ j := by
        rcases hn with ⟨-, rfl⟩ | ⟨-, rfl, hcluster⟩
        · exact hj
        · refine Nat.lt_of_le_of_ne hj ?_
          rintro rfl
          exact absurd hlow (Nat.not_lt.mpr hcluster)
      obtain ⟨k, rfl⟩ := Nat.exists_eq_add_of_le hle
      exact ⟨k, hQ, .inr (by rwa [link_link])⟩
  · rintro ⟨j, hQ, hmark | hlow⟩
    · rw [link_link] at hmark
      refine .inl ⟨n + j, hQ, ?_, hmark⟩
      refine (Nat.eq_zero_or_pos (n + j)).symm.imp_right fun hzero => ?_
      rcases hn with ⟨hoffset, hcount⟩ | ⟨-, hcount, -⟩
      · rw [hoffset, ← hcount, (Nat.add_eq_zero_iff.mp hzero).1, Nat.zero_mul] at hposition
        exact hposition.symm
      · exact absurd (hcount.symm.trans (Nat.add_eq_zero_iff.mp hzero).1) (Nat.succ_ne_zero _)
    · rw [link_link] at hlow
      exact .inr ⟨n + j, hQ, by omega, hlow⟩

theorem chainLeaves_iff (hpass : ∀ i, 0 < i → i ≤ position / getClusterSize m → link m c i < 0xfff7)
    (hn : position % getClusterSize m = 0 ∧ n = position / getClusterSize m ∨
      position % getClusterSize m ≠ 0 ∧ n = position / getClusterSize m + 1 ∧
        2 ≤ link m c (position / getClusterSize m)) :
    ChainLeaves m c position ↔ ∃ j, 0xfff7 ≤ link m (link m c n) j ∨ link m (link m c n) j < 2 := by
  simpa [ChainLeaves] using leaves_iff (fun _ => True) hpass hn

theorem link_lt (hc : c < 2 ^ 16) (j : Nat) : link m c j < 2 ^ 16 := by
  cases j with
  | zero => exact hc
  | succ j => exact link_succ m c j ▸ getClusterValue_lt m _

end ArmOs
