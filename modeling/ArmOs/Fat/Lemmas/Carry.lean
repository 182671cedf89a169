import ArmOs.Fat.Lemmas.Copies

/-!
# How far a long read gets

A read of almost 4GB stays within the wanted bytes if the chain of its file stops before the 32-bit counter is full. On
a table whose cluster 2 is followed by itself the chain never stops, so that the counter alone decides how far a read
gets.
-/

namespace ArmOs

open Lib

variable {m m' m₀ : Mem} {volume ttbr0 c k n buffer size readSize position index fuel bps spc : Nat}

/-! ## The second loop -/

/-- If the chain goes on so long, and more is wanted than the counter can count, the loop comes to a round that counts
past 4GB, and that round copies a whole cluster. -/
theorem loopCopies_carry (ttbr0 : Nat) (ht : TableWithin m₀ volume) (hm : SameImage m₀ m volume)
    (hbuffer : getFsBpb m₀ + volume ≤ buffer) (hpass : ∀ j ≤ k, link m₀ index j < 0xfff7 ∧ 2 ≤ link m₀ index j)
    (hmore : readSize + k * getClusterSize m₀ < size) (hlt : readSize + k * getClusterSize m₀ < 2 ^ 32)
    (hcarry : 2 ^ 32 ≤ readSize + k * getClusterSize m₀ + getClusterSize m₀) (hfuel : k < fuel) :
    (buffer + k * getClusterSize m₀, getClusterSize m₀) ∈
      loopCopies ttbr0 (getClusterSize m₀) (getFsBpb m₀) size fuel index buffer readSize m := by
  have hcluster := getClusterSize_lt m₀
  induction k generalizing m index buffer readSize fuel with
  | zero =>
      obtain ⟨fuel, rfl⟩ := Nat.exists_eq_add_of_lt hfuel
      obtain ⟨hindex, hge⟩ : index < 0xfff7 ∧ 2 ≤ index := hpass 0 (Nat.le_refl 0)
      rw [Nat.zero_mul, Nat.add_zero] at hmore hlt hcarry
      have hwrap : (readSize + getClusterSize m₀) % 2 ^ 32 = readSize + getClusterSize m₀ - 2 ^ 32 := by
        rw [Nat.mod_eq_sub_mod hcarry, Nat.mod_eq_of_lt (by omega)]
      rw [loopCopies, if_pos ⟨hmore, hindex⟩, getClusterOffset_eq hge]
      dsimp only
      rw [if_neg (by omega), Nat.zero_mul, Nat.add_zero]
      exact List.mem_cons_self
  | succ k ih =>
      obtain ⟨fuel, rfl⟩ := Nat.exists_eq_add_of_lt (Nat.zero_lt_of_lt hfuel)
      obtain ⟨hindex, hge⟩ : index < 0xfff7 ∧ 2 ≤ index := hpass 0 (Nat.zero_le _)
      rw [Nat.succ_mul, Nat.add_comm (k * getClusterSize m₀), ← Nat.add_assoc] at hmore hlt hcarry
      have hgo : (readSize + getClusterSize m₀) % 2 ^ 32 = readSize + getClusterSize m₀ :=
        Nat.mod_eq_of_lt (by omega)
      obtain ⟨m', hcopy, hm'⟩ := hm.copyOut hbuffer ttbr0 (clusterOffset m index + getFsBpb m₀)
        (getClusterSize m₀)
      rw [loopCopies, if_pos ⟨by omega, hindex⟩, getClusterOffset_eq hge]
      dsimp only
      rw [hgo, if_neg (by omega), hcopy]
      dsimp only
      rw [ht.value hm' (show index < 2 ^ 16 by omega)]
      have hnext : ∀ j ≤ k, link m₀ (getClusterValue m₀ index) j < 0xfff7 ∧
          2 ≤ link m₀ (getClusterValue m₀ index) j := fun j hj => hpass (j + 1) (Nat.succ_le_succ hj)
      have hmem := ih hm' (Nat.le_trans hbuffer (Nat.le_add_right buffer (getClusterSize m₀))) hnext hmore hlt hcarry
        (show k < 0 + fuel by omega)
      rw [Nat.succ_mul, Nat.add_comm (k * getClusterSize m₀), ← Nat.add_assoc]
      exact List.mem_cons_of_mem _ hmem

/-- If the chain ends before, the copies stay within the wanted bytes. -/
theorem loopCopies_stops (ttbr0 fuel : Nat) (ht : TableWithin m₀ volume) (hm : SameImage m₀ m volume)
    (hbuffer : getFsBpb m₀ + volume ≤ buffer) (hsize : size < 2 ^ 32)
    (hmore : readSize + k * getClusterSize m₀ < size)
    (hstop : ∃ j ≤ k, 0xfff7 ≤ link m₀ index j ∨ link m₀ index j < 2) :
    CopiesWithin buffer (size - readSize)
      (loopCopies ttbr0 (getClusterSize m₀) (getFsBpb m₀) size fuel index buffer readSize m) := by
  induction k generalizing m index buffer readSize fuel with
  | zero =>
      obtain ⟨j, hj, hstop⟩ := hstop
      obtain rfl := Nat.le_zero.mp hj
      exact loopCopies_out hstop
  | succ k ih =>
      by_cases hout : 0xfff7 ≤ index ∨ index < 2
      · exact loopCopies_out hout
      · obtain ⟨hindex, hge⟩ : index < 0xfff7 ∧ 2 ≤ index := by omega
        rw [Nat.succ_mul, Nat.add_comm (k * getClusterSize m₀), ← Nat.add_assoc] at hmore
        have hgo : (readSize + getClusterSize m₀) % 2 ^ 32 = readSize + getClusterSize m₀ :=
          Nat.mod_eq_of_lt (by omega)
        obtain ⟨m', hcopy, hm'⟩ := hm.copyOut hbuffer ttbr0 (clusterOffset m index + getFsBpb m₀)
          (getClusterSize m₀)
        have hnext : ∃ j ≤ k, 0xfff7 ≤ link m₀ (getClusterValue m₀ index) j ∨
            link m₀ (getClusterValue m₀ index) j < 2 := by
          obtain ⟨j, hj, hstop⟩ := hstop
          cases j with
          | zero => exact absurd hstop hout
          | succ j => exact ⟨j, Nat.le_of_succ_le_succ hj, hstop⟩
        cases fuel with
        | zero => exact .nil
        | succ fuel =>
            rw [loopCopies, if_pos ⟨by omega, hindex⟩, getClusterOffset_eq hge]
            dsimp only
            rw [hgo, if_neg (by omega), hcopy]
            dsimp only
            rw [ht.value hm' (show index < 2 ^ 16 by omega)]
            refine .cons (by omega) ?_
            rw [Nat.sub_sub]
            exact ih fuel hm' (Nat.le_add_right_of_le hbuffer) hmore hnext

/-! ## The whole read -/

/-- A read that ends behind the offset the counter can count to: the chain stops in the first loop or at the head, or
the second loop has `k` rounds before the one that counts past 4GB. -/
theorem rawCopies_long (ttbr0 : Nat) (ht : TableWithin m volume) (hcs : 0 < getClusterSize m)
    (hbuffer : getFsBpb m + volume ≤ buffer) (hc : c < 2 ^ 16) (hsum : position + size < 2 ^ 32)
    (hend : countable (getClusterSize m) position < position + size) :
    (rawCopies ttbr0 c buffer position size m = [] ∧
      ChainStops m c position ((position + (2 ^ 32 - 1)) / getClusterSize m)) ∨
    ∃ n k r m' head, SameImage m m' volume ∧ (head = [] ∧ r = 0 ∨ head = [(buffer, r)]) ∧
      rawCopies ttbr0 c buffer position size m =
        head ++ loopCopies ttbr0 (getClusterSize m) (getFsBpb m) size readFuel (link m c n) (buffer + r) r m' ∧
      position + (r + k * getClusterSize m) = countable (getClusterSize m) position ∧
      (ChainStops m c position ((position + (2 ^ 32 - 1)) / getClusterSize m) ↔
        ∃ j ≤ k, 0xfff7 ≤ link m (link m c n) j ∨ link m (link m c n) j < 2) := by
  have hcluster := getClusterSize_lt m
  have hle := countable_le (getClusterSize m) position
  have hposition := Nat.div_add_mod' position (getClusterSize m)
  have hmod := Nat.mod_lt position hcs
  obtain ⟨hnext, -⟩ := countable_of_mul hcs (by omega) position
  have hrefl : SameImage m m volume := fun _ _ _ => rfl
  -- the number of the cluster at which the counter is full
  obtain ⟨N, hN⟩ : ∃ N, N = (position + (2 ^ 32 - 1)) / getClusterSize m := ⟨_, rfl⟩
  have hcount : countable (getClusterSize m) position = N * getClusterSize m := by rw [countable, hN]
  have hlt : position / getClusterSize m + 1 ≤ N := by
    refine Nat.le_of_mul_le_mul_right ?_ hcs
    rwa [← hcount, Nat.succ_mul]
  rw [← hN]
  have hbound : ∀ n k, n + k = N → ∀ Q : Nat → Prop, (∃ j, n + j ≤ N ∧ Q j) ↔ ∃ j ≤ k, Q j := fun n k hk Q =>
    exists_congr fun j => and_congr_left fun _ => by omega
  by_cases hpass : ∀ i, 0 < i → i ≤ position / getClusterSize m → link m c i < 0xfff7
  · simp only [rawCopies, skipClusters_link hpass, copiesFrom]
    split
    · rename_i hoffset
      cases Nat.lt_or_ge (link m c (position / getClusterSize m)) 2 with
      | inl hlow =>
          rw [getClusterOffset_of_lt hlow]
          exact .inl ⟨rfl, .inr ⟨_, by omega, Nat.le_refl _, hlow⟩⟩
      | inr hge =>
          obtain ⟨k, hk⟩ := Nat.exists_eq_add_of_le hlt
          have hleaves := leaves_iff (· ≤ N) hpass (.inr ⟨hoffset, rfl, hge⟩)
          obtain ⟨m', hcopy, hm'⟩ := hrefl.copyOut hbuffer ttbr0
            (clusterOffset m (link m c (position / getClusterSize m)) + getFsBpb m + position % getClusterSize m)
            (getClusterSize m - position % getClusterSize m)
          have hshort : ¬(position % getClusterSize m + size) % 2 ^ 32 ≤ getClusterSize m := by
            rw [Nat.mod_eq_of_lt (by omega)]
            omega
          have hvalue := ht.value hm' (link_lt (m := m) hc (position / getClusterSize m))
          rw [getClusterOffset_eq hge]
          dsimp only
          rw [if_neg hshort, hcopy]
          dsimp only
          rw [hvalue, ← link_succ]
          refine .inr ⟨_, k, _, m', [_], hm', .inr rfl, rfl, ?_, hleaves.trans (hbound _ k hk.symm _)⟩
          rw [hcount, hk, Nat.add_mul, Nat.succ_mul]
          omega
    · rename_i hzero
      have hzero : position % getClusterSize m = 0 := Decidable.not_not.mp hzero
      obtain ⟨k, hk⟩ := Nat.exists_eq_add_of_le (Nat.le_of_succ_le hlt)
      have hleaves := leaves_iff (· ≤ N) hpass (.inl ⟨hzero, rfl⟩)
      refine .inr ⟨_, k, 0, m, [], hrefl, .inl ⟨rfl, rfl⟩, rfl, ?_, hleaves.trans (hbound _ k hk.symm _)⟩
      rw [hcount, hk, Nat.add_mul]
      omega
  · simp only [not_forall, Nat.not_lt] at hpass
    obtain ⟨i, hi, hin, hmark⟩ := hpass
    simp only [rawCopies, skipClusters_mark hi hin hmark]
    exact .inl ⟨trivial, .inl ⟨i, by omega, .inl hi, hmark⟩⟩

/-- Such a read stays within the wanted bytes exactly if the chain stops before the counter is full. Otherwise it copies
a cluster from there on, and so writes more than 4GB. -/
theorem rawCopies_within_iff (ttbr0 : Nat) (ht : TableWithin m volume) (hcs : 0 < getClusterSize m)
    (hbuffer : getFsBpb m + volume ≤ buffer) (hc : c < 2 ^ 16) (hsum : position + size < 2 ^ 32)
    (hend : countable (getClusterSize m) position < position + size) (hsize : size ≤ n) (hn : n < 2 ^ 32) :
    CopiesWithin buffer n (rawCopies ttbr0 c buffer position size m) ↔
      ChainStops m c position ((position + (2 ^ 32 - 1)) / getClusterSize m) := by
  have hcluster := getClusterSize_lt m
  have hle := countable_le (getClusterSize m) position
  have hge := countable_lt hcs position
  rcases rawCopies_long ttbr0 ht hcs hbuffer hc hsum hend with ⟨hnone, hstops⟩ | ⟨i, k, r, m', head, hm', hhead, hcopies, hk, hstops⟩
  · rw [hnone]
    exact iff_of_true .nil hstops
  · have hlater : getFsBpb m + volume ≤ buffer + r := Nat.le_add_right_of_le hbuffer
    rw [hcopies, hstops]
    constructor
    · intro hwithin
      by_contra hnot
      have hpass : ∀ j ≤ k, link m (link m c i) j < 0xfff7 ∧ 2 ≤ link m (link m c i) j := by
        intro j hj
        have hout : ¬(0xfff7 ≤ link m (link m c i) j ∨ link m (link m c i) j < 2) := fun hout => hnot ⟨j, hj, hout⟩
        omega
      have hfuel : k < readFuel := by
        have := Nat.le_mul_of_pos_right k hcs
        simp only [readFuel]
        omega
      have hmem := loopCopies_carry ttbr0 ht hm' hlater hpass (show r + k * getClusterSize m < size by omega)
        (by omega) (by omega) hfuel
      have := hwithin _ _ (List.mem_append_right head hmem)
      omega
    · intro hstop
      have hloop := loopCopies_stops ttbr0 readFuel ht hm' hlater (show size < 2 ^ 32 by omega)
        (show r + k * getClusterSize m < size by omega) hstop
      rcases hhead with ⟨rfl, rfl⟩ | rfl
      · exact hloop.mono hsize
      · exact (CopiesWithin.cons (by omega) hloop).mono hsize

/-! ## A cluster that links to itself -/

theorem link_self (h : getClusterValue m 2 = 2) (j : Nat) : link m 2 j = 2 := by
  induction j with
  | zero => rfl
  | succ j ih => rw [link_succ, ih, h]

/-- The chain from there never stops. -/
theorem not_chainStops_self (h : getClusterValue m 2 = 2) : ¬ChainStops m 2 position k := by
  rintro (⟨j, -, -, hmark⟩ | ⟨j, -, -, hlow⟩)
  · rw [link_self h] at hmark
    exact absurd hmark (by decide)
  · rw [link_self h] at hlow
    exact absurd hlow (by decide)

/-! ## An image with such a table -/

theorem read_zero (n a : Nat) : Mem.read (fun _ => 0) n a = 0 := by
  induction n generalizing a with
  | zero => rfl
  | succ n ih => simp [Mem.read, ih]

/-- Cluster 2 links to itself, and nothing else is there but the cluster size. -/
def selfLinkMem (bps spc : Nat) : Mem :=
  Mem.write (Mem.write (Mem.write (fun _ => 0) 2 (fsBase + 4) 2) 2 (fsBase + 11) bps) 1 (fsBase + 13) spc

/-- What is read from other places of the image. -/
theorem selfLinkMem_zero {i : Nat} (h : i + n ≤ 4 ∨ 6 ≤ i ∧ i + n ≤ 11 ∨ 14 ≤ i) :
    (selfLinkMem bps spc).read n (fsBase + i) = 0 := by
  unfold selfLinkMem
  rw [Mem.read_write_ne _ _ (by omega), Mem.read_write_ne _ _ (by omega), Mem.read_write_ne _ _ (by omega), read_zero]

theorem selfLinkMem_bpb : getFsBpb (selfLinkMem bps spc) = fsBase := by
  have hlba : (selfLinkMem bps spc).read 4 (fsBase + (0x1be + 8)) = 0 := selfLinkMem_zero (by decide)
  rw [getFsBpb, Nat.add_assoc, hlba, Nat.zero_mul, Nat.zero_mod, Nat.add_zero]

theorem selfLinkMem_bytesPerSector (hb : bps < 2 ^ 16) : Bpb.bytesPerSector (selfLinkMem bps spc) = bps := by
  rw [Bpb.bytesPerSector, selfLinkMem_bpb, selfLinkMem, Mem.read_write_ne _ _ (by omega), Mem.read_write_of_lt _ hb]

theorem selfLinkMem_sectorsPerCluster (hs : spc < 2 ^ 8) : Bpb.sectorsPerCluster (selfLinkMem bps spc) = spc := by
  rw [Bpb.sectorsPerCluster, selfLinkMem_bpb, selfLinkMem, Mem.read_write_of_lt _ hs]

theorem selfLinkMem_clusterSize (hb : bps < 2 ^ 16) (hs : spc < 2 ^ 8) :
    getClusterSize (selfLinkMem bps spc) = bps * spc := by
  rw [getClusterSize, selfLinkMem_bytesPerSector hb, selfLinkMem_sectorsPerCluster hs]

theorem selfLinkMem_reserved : Bpb.reservedSectorCount (selfLinkMem bps spc) = 0 := by
  rw [Bpb.reservedSectorCount, selfLinkMem_bpb]
  exact selfLinkMem_zero (by decide)

theorem selfLinkMem_table : TableWithin (selfLinkMem bps spc) (2 ^ 17) := by
  rw [TableWithin, selfLinkMem_reserved, Nat.zero_mul, Nat.zero_add]

theorem selfLinkMem_link : getClusterValue (selfLinkMem bps spc) 2 = 2 := by
  rw [getClusterValue, getFatTable_eq, selfLinkMem_reserved, selfLinkMem_bpb, Nat.zero_mul, Nat.add_zero, selfLinkMem,
    Mem.read_write_ne _ _ (by omega), Mem.read_write_ne _ _ (by omega), Mem.read_write_of_lt _ (by decide)]

end ArmOs
