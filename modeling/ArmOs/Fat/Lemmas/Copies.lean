import ArmOs.Fat.Lemmas.Walk

/-!
# The copies of a read

The calls of `memcpy` that `read_raw_data` makes, in order, whether or not it returns: where in the address space
the bytes go and how many they are.
-/

namespace ArmOs

open Lib

/-- The copies of the second loop. -/
def loopCopies (ttbr0 clusterSize bpb size : Nat) : (fuel index buffer readSize : Nat) → Mem → List (Nat × Nat)
  | 0, _, _, _, _ => []
  | fuel + 1, index, buffer, readSize, m =>
      if readSize < size ∧ index < 0xfff7 then
        match getClusterOffset m index with
        | .error _ => []
        | .ok offset =>
            if size ≤ (readSize + clusterSize) % 2 ^ 32 then
              [(buffer, size - readSize)]
            else
              (buffer, clusterSize) ::
                match copyOut ttbr0 m buffer (offset + bpb) clusterSize with
                | .error _ => []
                | .ok m' =>
                    loopCopies ttbr0 clusterSize bpb size fuel (getClusterValue m' index) (buffer + clusterSize)
                      ((readSize + clusterSize) % 2 ^ 32) m'
      else
        []

/-- The copies after the first loop, from `offset` in the cluster `index` on. -/
def copiesFrom (ttbr0 index offset buffer size : Nat) (m : Mem) : List (Nat × Nat) :=
  if offset ≠ 0 then
    let readSize := if (offset + size) % 2 ^ 32 ≤ getClusterSize m then size else getClusterSize m - offset
    match getClusterOffset m index with
    | .error _ => []
    | .ok clusterOffset =>
        (buffer, readSize) ::
          match copyOut ttbr0 m buffer (clusterOffset + getFsBpb m + offset) readSize with
          | .error _ => []
          | .ok m' =>
              loopCopies ttbr0 (getClusterSize m) (getFsBpb m) size readFuel (getClusterValue m' index)
                (buffer + readSize) readSize m'
  else
    loopCopies ttbr0 (getClusterSize m) (getFsBpb m) size readFuel index buffer 0 m

/-- The copies of `read_raw_data`. -/
def rawCopies (ttbr0 clusterIndex buffer position size : Nat) (m : Mem) : List (Nat × Nat) :=
  match skipClusters m (position / getClusterSize m) clusterIndex with
  | .error _ => []
  | .ok index => copiesFrom ttbr0 index (position % getClusterSize m) buffer size m

/-- The copies stay within the `n` bytes from `buffer` on. -/
def CopiesWithin (buffer n : Nat) (copies : List (Nat × Nat)) : Prop :=
  ∀ va k, (va, k) ∈ copies → buffer ≤ va ∧ va + k ≤ buffer + n

/-- The byte at `x` is one that a copy goes to, or one behind a copy to an address inside or behind the image: there
`memcpy` may go backwards. -/
def Written (ttbr0 : Nat) (copies : List (Nat × Nat)) (x : Nat) : Prop :=
  ∃ va k m a, (va, k) ∈ copies ∧ resolve m ttbr0 va k = .ok a ∧ a ≤ x ∧ (x < a + k ∨ fsBase < a)

variable {m m' : Mem} {ttbr0 c i j o n k cs bpb va buffer size readSize position index offset fuel x : Nat}
  {copies : List (Nat × Nat)}

/-! ## Only the copies write -/

theorem Written.mono {copies' : List (Nat × Nat)} (h : Written ttbr0 copies x) (hsub : ∀ c ∈ copies, c ∈ copies') :
    Written ttbr0 copies' x := by
  obtain ⟨va, k, m, a, hmem, ha⟩ := h
  exact ⟨va, k, m, a, hsub _ hmem, ha⟩

theorem copyOut_written (hi : fsBase ≤ i) (h : copyOut ttbr0 m buffer i n = .ok m') (hx : m' x ≠ m x) :
    Written ttbr0 [(buffer, n)] x := by
  unfold copyOut at h
  split at h
  · cases h
    exact absurd rfl hx
  · obtain ⟨a, ha, h⟩ := bind_eq_ok.mp h
    cases h
    have hle : a ≤ x := by
      by_contra hlt
      exact hx (memcpy_of_lt (Nat.lt_of_not_le hlt))
    refine ⟨buffer, n, m, a, List.mem_singleton_self _, ha, hle, ?_⟩
    cases Nat.lt_or_ge i a with
    | inl hinside => exact .inr (Nat.lt_of_le_of_lt hi hinside)
    | inr habove =>
        rw [memcpy_eq_copy fun hlt => absurd habove (Nat.not_le_of_gt hlt)] at hx
        by_contra hout
        exact hx (if_neg fun hin => hout (.inl hin.2))

theorem readLoop_written (hbpb : fsBase ≤ bpb) (h : readLoop ttbr0 cs bpb size fuel index buffer readSize m = .ok (n, m'))
    (hx : m' x ≠ m x) : Written ttbr0 (loopCopies ttbr0 cs bpb size fuel index buffer readSize m) x := by
  induction fuel generalizing index buffer readSize m with
  | zero => cases h
  | succ fuel ih =>
      rw [readLoop] at h
      rw [loopCopies]
      split at h
      · rename_i hgo
        obtain ⟨off, hoff, h⟩ := bind_eq_ok.mp h
        simp only [if_pos hgo, hoff]
        split at h
        · rename_i hend
          obtain ⟨m₁, hcopy, h⟩ := bind_eq_ok.mp h
          cases h
          rw [if_pos hend]
          exact copyOut_written (Nat.le_add_left_of_le hbpb) hcopy hx
        · rename_i hend
          obtain ⟨m₁, hcopy, h⟩ := bind_eq_ok.mp h
          simp only [if_neg hend, hcopy]
          by_cases hx₁ : m₁ x = m x
          · exact (ih h (by rwa [hx₁])).mono fun c hc => List.mem_cons_of_mem _ hc
          · exact (copyOut_written (Nat.le_add_left_of_le hbpb) hcopy hx₁).mono fun c hc => List.mem_singleton.mp hc ▸ List.mem_cons_self
      · cases h
        exact absurd rfl hx

/-- A byte that differs after the read is one that a copy of the read went to. -/
theorem readRawData_written (h : readRawData ttbr0 c buffer position size m = .ok (n, m')) (hx : m' x ≠ m x) :
    Written ttbr0 (rawCopies ttbr0 c buffer position size m) x := by
  have hbpb := fsBase_le_bpb m
  rw [readRawData_eq] at h
  obtain ⟨index, hskip, h⟩ := bind_eq_ok.mp h
  simp only [rawCopies, hskip, copiesFrom]
  unfold readFrom at h
  split at h
  · rename_i hoffset
    obtain ⟨off, hoff, h⟩ := bind_eq_ok.mp h
    obtain ⟨m₁, hcopy, h⟩ := bind_eq_ok.mp h
    simp only [if_pos hoffset, hoff, hcopy]
    by_cases hx₁ : m₁ x = m x
    · exact (readLoop_written hbpb h (by rwa [hx₁])).mono fun c hc => List.mem_cons_of_mem _ hc
    · exact (copyOut_written (Nat.le_add_right_of_le (Nat.le_add_left_of_le hbpb)) hcopy hx₁).mono fun c hc => List.mem_singleton.mp hc ▸ List.mem_cons_self
  · rename_i hoffset
    rw [if_neg hoffset]
    exact readLoop_written hbpb h hx

/-! ## How far the copies go -/

namespace CopiesWithin

theorem nil : CopiesWithin buffer n [] := nofun

theorem cons (hk : k ≤ n) (h : CopiesWithin (buffer + k) (n - k) copies) :
    CopiesWithin buffer n ((buffer, k) :: copies) := by
  intro va i hmem
  cases hmem with
  | head => exact ⟨Nat.le_refl _, Nat.add_le_add_left hk _⟩
  | tail _ hmem =>
      have := h va i hmem
      omega

theorem mono (h : CopiesWithin buffer n copies) (hn : n ≤ k) : CopiesWithin buffer k copies := by
  intro va i hmem
  have := h va i hmem
  omega

end CopiesWithin

/-- `r` is where the counter of the loop can get without losing a carry, starting at `readSize`. If no more than
that is wanted, the copies of the loop go to the bytes that are still missing, whatever the table is. -/
theorem loopCopies_within {r : Nat} (hr : r < 2 ^ 32) (hsize : size ≤ r) (hle : readSize ≤ r)
    (hdvd : cs ∣ r - readSize) :
    CopiesWithin buffer (size - readSize) (loopCopies ttbr0 cs bpb size fuel index buffer readSize m) := by
  induction fuel generalizing index buffer readSize m with
  | zero => exact .nil
  | succ fuel ih =>
      rw [loopCopies]
      split
      · rename_i hgo
        have hcs := Nat.le_of_dvd (by omega) hdvd
        cases hoff : getClusterOffset m index with
        | error e => exact .nil
        | ok off =>
            dsimp only
            split
            · exact .cons (Nat.le_refl _) .nil
            · rename_i hend
              rw [Nat.mod_eq_of_lt (by omega)] at hend ⊢
              refine .cons (by omega) ?_
              cases hcopy : copyOut ttbr0 m buffer (off + bpb) cs with
              | error e => exact .nil
              | ok m' =>
                  rw [Nat.sub_sub]
                  refine ih (by omega) ?_
                  rw [← Nat.sub_sub]
                  exact Nat.dvd_sub hdvd (Nat.dvd_refl cs)
      · exact .nil

/-- The loop copies nothing where the chain has left the clusters. -/
theorem loopCopies_out (h : 0xfff7 ≤ index ∨ index < 2) :
    CopiesWithin buffer n (loopCopies ttbr0 cs bpb size fuel index buffer readSize m) := by
  cases fuel with
  | zero => exact .nil
  | succ fuel =>
      rw [loopCopies]
      split
      · rename_i hgo
        rw [getClusterOffset_of_lt (h.resolve_left (Nat.not_le.mpr hgo.2))]
        exact .nil
      · exact .nil

/-- The largest file offset that the counter of a read at `position` can count to: a multiple of the cluster
size less than 4GB away. -/
def countable (clusterSize position : Nat) : Nat := (position + (2 ^ 32 - 1)) / clusterSize * clusterSize

theorem countable_le (cs position : Nat) : countable cs position ≤ position + (2 ^ 32 - 1) :=
  Nat.div_mul_le_self _ _

theorem countable_lt (hcs : 0 < cs) (position : Nat) : position + (2 ^ 32 - 1) < countable cs position + cs := by
  have hsplit := Nat.div_add_mod' (position + (2 ^ 32 - 1)) cs
  have hmod := Nat.mod_lt (position + (2 ^ 32 - 1)) hcs
  unfold countable
  omega

/-- A whole number of clusters further the counter can still count, and to the same offset. -/
theorem countable_of_mul (hcs : 0 < cs) (hlt : cs < 2 ^ 32) (position : Nat) :
    position / cs * cs + cs ≤ countable cs position ∧ cs ∣ countable cs position - (position / cs * cs + cs) := by
  have hdiv : position / cs + 1 ≤ (position + (2 ^ 32 - 1)) / cs := by
    rw [← Nat.add_div_right position hcs]
    exact Nat.div_le_div_right (by omega)
  rw [← Nat.succ_mul]
  exact ⟨Nat.mul_le_mul_right cs hdiv, Nat.dvd_sub (Nat.dvd_mul_left _ _) (Nat.dvd_mul_left _ _)⟩

/-- The copies of a read that ends where the counter can count to. -/
theorem rawCopies_within (hcs : 0 < getClusterSize m) (hsum : position + size < 2 ^ 32)
    (hend : position + size ≤ countable (getClusterSize m) position) :
    CopiesWithin buffer size (rawCopies ttbr0 c buffer position size m) := by
  have hcluster := getClusterSize_lt m
  have hle := countable_le (getClusterSize m) position
  have hposition := Nat.div_add_mod' position (getClusterSize m)
  have hmod := Nat.mod_lt position hcs
  obtain ⟨hnext, hdvd⟩ := countable_of_mul hcs (by omega) position
  rw [rawCopies]
  cases hskip : skipClusters m (position / getClusterSize m) c with
  | error e => exact .nil
  | ok index =>
      dsimp only
      rw [copiesFrom]
      split
      · rename_i hoffset
        cases hoff : getClusterOffset m index with
        | error e => exact .nil
        | ok off =>
            dsimp only
            rw [Nat.mod_eq_of_lt (by omega)]
            split
            · refine .cons (Nat.le_refl _) ?_
              cases hcopy : copyOut ttbr0 m buffer (off + getFsBpb m + position % getClusterSize m) size with
              | error e => exact .nil
              | ok m' => exact loopCopies_within (r := size) (by omega) (Nat.le_refl _) (Nat.le_refl _) (by simp)
            · refine .cons (by omega) ?_
              cases hcopy : copyOut ttbr0 m buffer (off + getFsBpb m + position % getClusterSize m)
                  (getClusterSize m - position % getClusterSize m) with
              | error e => exact .nil
              | ok m' =>
                  refine loopCopies_within (r := countable (getClusterSize m) position - position) (by omega) (by omega)
                    (by omega) ?_
                  have hsub : countable (getClusterSize m) position - position -
                      (getClusterSize m - position % getClusterSize m) =
                      countable (getClusterSize m) position -
                        (position / getClusterSize m * getClusterSize m + getClusterSize m) := by omega
                  rwa [hsub]
      · rename_i hzero
        have hzero : position % getClusterSize m = 0 := Decidable.not_not.mp hzero
        have hsub : countable (getClusterSize m) position - position - 0 =
            countable (getClusterSize m) position -
              (position / getClusterSize m * getClusterSize m + getClusterSize m) + getClusterSize m := by omega
        have hdiv : getClusterSize m ∣ countable (getClusterSize m) position - position - 0 :=
          hsub ▸ Nat.dvd_add hdvd (Nat.dvd_refl _)
        exact loopCopies_within (by omega) (by omega) (Nat.zero_le _) hdiv

/-- A read never says that it has read more than it was asked for. -/
theorem readLoop_le (h : readLoop ttbr0 cs bpb size fuel index buffer readSize m = .ok (n, m'))
    (hle : readSize ≤ size) : n ≤ size := by
  induction fuel generalizing index buffer readSize m with
  | zero => cases h
  | succ fuel ih =>
      rw [readLoop] at h
      split at h
      · rename_i hgo
        obtain ⟨off, -, h⟩ := bind_eq_ok.mp h
        dsimp only at h
        split at h
        · obtain ⟨m₁, -, h⟩ := bind_eq_ok.mp h
          cases h
          exact Nat.le_refl _
        · obtain ⟨m₁, -, h⟩ := bind_eq_ok.mp h
          exact ih h (by omega)
      · cases h
        exact hle

theorem readRawData_le (hcs : 0 < getClusterSize m) (hsize : size < 2 ^ 32)
    (h : readRawData ttbr0 c buffer position size m = .ok (n, m')) : n ≤ size := by
  have hcluster := getClusterSize_lt m
  have hmod := Nat.mod_lt position hcs
  rw [readRawData_eq] at h
  obtain ⟨index, -, h⟩ := bind_eq_ok.mp h
  unfold readFrom at h
  split at h
  · obtain ⟨off, -, h⟩ := bind_eq_ok.mp h
    obtain ⟨m₁, -, h⟩ := bind_eq_ok.mp h
    exact readLoop_le h (by split <;> omega)
  · exact readLoop_le h (Nat.zero_le _)

end ArmOs
