import ArmOs.Fat.Lemmas.Open

/-!
# Loading a file

A read from the beginning of a file to a page: what it writes, and what it must have done when it returns, whatever
the table is. The clusters that it copied form a path, up to the wanted size or up to a mark.
-/

namespace ArmOs

open Lib

variable {m m' m₀ : Mem} {s t : Kernel} {p : Proc} {fd : Int} {xs : List Cluster}
  {ttbr0 bpb cs c d e f k n size fuel index buffer readSize dst : Nat}

/-! ## To a kernel address -/

/-- With clusters of no bytes the loop copies nothing. -/
theorem readLoop_noBytes (h : readLoop ttbr0 0 bpb size fuel index buffer 0 m = .ok (n, m')) : m' = m ∧ n = 0 := by
  induction fuel generalizing index with
  | zero => cases h
  | succ fuel ih =>
      rw [readLoop] at h
      split at h
      · rename_i hgo
        obtain ⟨off, -, h⟩ := bind_eq_ok.mp h
        dsimp only at h
        rw [if_neg (by omega), copyOut, if_pos rfl] at h
        exact ih h
      · cases h
        exact ⟨rfl, rfl⟩

/-- A read from the beginning of a file of at most a page, to an address of the upper half below the image. -/
theorem readRawData_within (hbuffer : kernelBase ≤ buffer) (hsize : size ≤ pageSize) (hend : buffer + size ≤ fsBase)
    (h : readRawData ttbr0 c buffer 0 size m = .ok (n, m')) : SameOutside m m' buffer size := by
  cases Nat.eq_zero_or_pos (getClusterSize m) with
  | inl hcs =>
      rw [readRawData_eq, hcs, Nat.zero_div, skipClusters, ok_bind, readFrom, Nat.zero_mod, if_neg (by simp),
        hcs] at h
      obtain ⟨hm, -⟩ := readLoop_noBytes h
      rw [hm]
      exact .refl m buffer size
  | inr hcs =>
      have hlt := countable_lt hcs 0
      have hcluster := getClusterSize_lt m
      have hpage : pageSize = 2097152 := by decide
      have hwithin : CopiesWithin buffer size (rawCopies ttbr0 c buffer 0 size m) :=
        rawCopies_within hcs (by omega) (by omega)
      intro x hx
      by_contra hne
      obtain ⟨va, k, m₁, a, hmem, ha, hle, hlast⟩ := readRawData_written h hne
      have hva := hwithin va k hmem
      rw [resolve, if_pos (hbuffer.trans hva.1)] at ha
      cases ha
      omega

/-- Such a read through a descriptor at the beginning of its file. -/
theorem Descriptor.readFile_within (hd : Descriptor s p fd d f) (hposition : (s.fs.fileDescTable d).position = 0)
    (hbuffer : kernelBase ≤ buffer) (hsize : size ≤ pageSize) (hend : buffer + size ≤ fsBase) (h : readFile p fd buffer size s = .ok (n, t)) :
    SameOutside s.memory.mem t.memory.mem buffer size ∧ t.memory.freeMemory = s.memory.freeMemory := by
  by_cases hr : Refused (s.fs.fileDescTable d).position size (s.fs.fcbTable f).fileSize
  · rw [hd.readFile_refused buffer hr] at h
    cases h
    exact ⟨.refl _ _ _, rfl⟩
  · rw [hd.readFile_eq hr, hposition] at h
    obtain ⟨⟨k, m⟩, hraw, h⟩ := bind_eq_ok.mp h
    cases h
    exact ⟨readRawData_within hbuffer hsize hend hraw, rfl⟩

/-! ## The copies of a read from the beginning -/

/-- The last copy of the loop. -/
theorem loopCopies_last (hgo : readSize < size) (hindex : index < 0xfff7) (hcluster : 2 ≤ index)
    (hend : size ≤ (readSize + cs) % 2 ^ 32) :
    loopCopies ttbr0 cs bpb size (fuel + 1) index buffer readSize m = [(buffer, size - readSize)] := by
  simp only [loopCopies, if_pos (And.intro hgo hindex), getClusterOffset_eq hcluster, if_pos hend]

/-- Any other round copies a cluster. -/
theorem loopCopies_round (hgo : readSize < size) (hindex : index < 0xfff7) (hcluster : 2 ≤ index)
    (hend : ¬size ≤ (readSize + cs) % 2 ^ 32) :
    loopCopies ttbr0 cs bpb size (fuel + 1) index buffer readSize m = (buffer, cs) ::
      match copyOut ttbr0 m buffer (clusterOffset m index + bpb) cs with
      | .error _ => []
      | .ok m' =>
          loopCopies ttbr0 cs bpb size fuel (getClusterValue m' index) (buffer + cs) ((readSize + cs) % 2 ^ 32) m' := by
  rw [loopCopies, if_pos ⟨hgo, hindex⟩, getClusterOffset_eq hcluster]
  dsimp only
  refine (if_neg hend).trans ?_
  cases copyOut ttbr0 m buffer (clusterOffset m index + bpb) cs <;> rfl

/-- Clusters of no bytes are copied to nowhere. -/
theorem loopCopies_noBytes : CopiesWithin buffer n (loopCopies ttbr0 0 bpb size fuel index buffer 0 m) := by
  induction fuel generalizing index with
  | zero => exact .nil
  | succ fuel ih =>
      by_cases hgo : 0 < size ∧ index < 0xfff7
      · cases Nat.lt_or_ge index 2 with
        | inl hlow =>
            simp only [loopCopies, if_pos hgo, getClusterOffset_of_lt hlow]
            exact .nil
        | inr hcluster =>
            rw [loopCopies_round hgo.1 hgo.2 hcluster (by omega)]
            exact .cons (Nat.zero_le n) ih
      · rw [loopCopies, if_neg hgo]
        exact .nil

/-- What is copied of a file of at most a page stays in a page. -/
theorem loadCopies_within (hsize : size ≤ pageSize) :
    CopiesWithin buffer pageSize (rawCopies ttbr0 c buffer 0 size m) := by
  cases Nat.eq_zero_or_pos (getClusterSize m) with
  | inl hcs =>
      simp only [rawCopies, hcs, Nat.zero_div, skipClusters, copiesFrom, Nat.zero_mod, ne_eq, not_true_eq_false, if_false]
      exact loopCopies_noBytes
  | inr hcs =>
      have hlt := countable_lt hcs 0
      have hcluster := getClusterSize_lt m
      have hpage : pageSize = 2097152 := by decide
      have hwithin : CopiesWithin buffer size (rawCopies ttbr0 c buffer 0 size m) :=
        rawCopies_within hcs (by omega) (by omega)
      exact hwithin.mono hsize

/-! ## What a read from the beginning has done -/

/-- The destination is below the image, and the counter does not overflow on the way. -/
structure LoadsTo (m : Mem) (ttbr0 buffer n dst : Nat) : Prop where
  lands : Lands m ttbr0 buffer n dst
  below : dst + n ≤ fsBase
  small : n + 2 ^ 24 ≤ 2 ^ 32

/-- What the loop has copied, if all its copies stay in the destination and it returns: a path of clusters, that
covers the wanted bytes or ends in a mark. The induction is on the fuel. -/
theorem readLoop_inv (hl : LoadsTo m₀ ttbr0 buffer n dst) (hm : SameOutside m₀ m dst n) (hle : readSize ≤ n)
    (hmore : readSize ≤ size)
    (hwithin : CopiesWithin buffer n (loopCopies ttbr0 (getClusterSize m₀) (getFsBpb m₀) size fuel c
      (buffer + readSize) readSize m))
    (hrun : readLoop ttbr0 (getClusterSize m₀) (getFsBpb m₀) size fuel c (buffer + readSize) readSize m = .ok (k, m')) :
    ∃ xs e, Path m₀ c xs e ∧ k ≤ n ∧ m' = m.put (dst + readSize) ((pathData m₀ xs).take (size - readSize)) ∧
      (k = size ∧ size ≤ readSize + xs.length * getClusterSize m₀ ∨
        k = readSize + xs.length * getClusterSize m₀ ∧ k < size ∧ 0xfff7 ≤ e) := by
  induction fuel generalizing c m readSize with
  | zero => cases hrun
  | succ fuel ih =>
      by_cases hgo : readSize < size ∧ c < 0xfff7
      · obtain ⟨hgo, hindex⟩ := hgo
        cases Nat.lt_or_ge c 2 with
        | inl hlow =>
            rw [readLoop, if_pos ⟨hgo, hindex⟩, getClusterOffset_of_lt hlow] at hrun
            cases hrun
        | inr hcluster =>
            obtain ⟨x, rfl⟩ : ∃ x : Cluster, x.val = c := ⟨⟨c, hcluster, Nat.le_of_lt_succ hindex⟩, rfl⟩
            have hu := fun xs => Undisturbed.below (m := m₀) hl.below xs
            have hcs := getClusterSize_lt m₀
            have hsmall := hl.small
            have hlt : readSize + getClusterSize m₀ < 2 ^ 32 := by omega
            have hlen : (clusterData m₀ x).length = getClusterSize m₀ := length_clusterData m₀ x
            cases Nat.lt_or_ge (readSize + getClusterSize m₀) size with
            | inr hend =>
                have hend' : size ≤ (readSize + getClusterSize m₀) % 2 ^ 32 := by rwa [Nat.mod_eq_of_lt hlt]
                rw [loopCopies_last hgo hindex hcluster hend'] at hwithin
                have hcopy := hwithin _ _ (List.mem_singleton_self _)
                rw [readLoop_last hl.lands (hu [x]) hm hgo (by omega) hlt hend] at hrun
                obtain ⟨rfl, rfl⟩ := Prod.mk.inj (Except.ok.inj hrun)
                refine ⟨[x], getClusterValue m₀ x, ⟨rfl, rfl⟩, by omega, ?_, .inl ⟨rfl, ?_⟩⟩
                · rw [pathData_cons, List.take_append_of_le_length (by omega)]
                · rwa [List.length_singleton, Nat.one_mul]
            | inl hnext =>
                have hend' : ¬size ≤ (readSize + getClusterSize m₀) % 2 ^ 32 := by
                  rw [Nat.mod_eq_of_lt hlt]
                  omega
                rw [loopCopies_round hgo hindex hcluster hend'] at hwithin
                have hcopy := hwithin _ _ List.mem_cons_self
                have hfit : readSize + getClusterSize m₀ ≤ n := by omega
                have hput : SameOutside m₀ (m.put (dst + readSize) (clusterData m₀ x)) dst n :=
                  hm.trans (SameOutside.put (by omega))
                have hapart := (hu [x]).apart_start hm List.mem_cons_self hfit (Nat.le_refl _)
                have hout := hl.lands.copyOut hm hapart hfit
                rw [(hu [x]).bytes hm List.mem_cons_self] at hout
                have hrest : CopiesWithin buffer n (loopCopies ttbr0 (getClusterSize m₀) (getFsBpb m₀) size fuel
                    (getClusterValue m₀ x) (buffer + (readSize + getClusterSize m₀)) (readSize + getClusterSize m₀)
                    (m.put (dst + readSize) (clusterData m₀ x))) := by
                  intro va i hmem
                  refine hwithin va i (List.mem_cons_of_mem _ ?_)
                  rw [hout]
                  dsimp only
                  rwa [(hu [x]).value hput x List.mem_cons_self, Nat.mod_eq_of_lt hlt, Nat.add_assoc]
                rw [readLoop_next hl.lands (hu [x]) hm hfit hlt hnext] at hrun
                obtain ⟨xs, e, hp, hk, rfl, hresult⟩ := ih hput hfit hnext.le hrest hrun
                refine ⟨x :: xs, e, Path.cons_iff.mpr ⟨rfl, hp⟩, hk, ?_, ?_⟩
                · have htake : (pathData m₀ (x :: xs)).take (size - readSize) =
                      clusterData m₀ x ++ (pathData m₀ xs).take (size - (readSize + getClusterSize m₀)) := by
                    rw [pathData_cons, List.take_append, List.take_of_length_le (by omega), hlen, Nat.sub_sub]
                  rw [htake, Mem.put_append, hlen, Nat.add_assoc]
                · rw [List.length_cons, Nat.succ_mul]
                  omega
      · have hstop : k = readSize ∧ m' = m := by
          rw [readLoop, if_neg hgo] at hrun
          obtain ⟨rfl, rfl⟩ := Prod.mk.inj (Except.ok.inj hrun)
          exact ⟨rfl, rfl⟩
        obtain ⟨rfl, rfl⟩ := hstop
        refine ⟨[], c, rfl, hle, by simp [pathData], ?_⟩
        rw [List.length_nil, Nat.zero_mul, Nat.add_zero]
        omega

/-- A read from the beginning of a file that returns, if all its copies stay in the destination. -/
theorem readRawData_inv (hl : LoadsTo m ttbr0 buffer n dst)
    (hwithin : CopiesWithin buffer n (rawCopies ttbr0 c buffer 0 size m))
    (hrun : readRawData ttbr0 c buffer 0 size m = .ok (k, m')) :
    ∃ xs e, Path m c xs e ∧ k ≤ n ∧ m' = m.put dst ((pathData m xs).take size) ∧
      (k = size ∧ size ≤ xs.length * getClusterSize m ∨
        k = xs.length * getClusterSize m ∧ k < size ∧ 0xfff7 ≤ e) := by
  rw [readRawData_eq, Nat.zero_div, skipClusters, ok_bind, readFrom, Nat.zero_mod, if_neg (by simp)] at hrun
  simp only [rawCopies, Nat.zero_div, skipClusters, copiesFrom, Nat.zero_mod, ne_eq, not_true_eq_false,
    if_false] at hwithin
  have h := readLoop_inv hl (.refl m dst n) (Nat.zero_le n) (Nat.zero_le size) hwithin hrun
  simpa only [Nat.zero_add, Nat.add_zero, Nat.sub_zero] using h

/-! ## The copies along a path -/

/-- Along a path to a mark the copies of the loop go to the bytes of the clusters. The induction is on the clusters
left. -/
theorem loopCopies_path (readSize fuel : Nat) (hl : LoadsTo m₀ ttbr0 buffer n dst) (hm : SameOutside m₀ m dst n) (hp : Path m₀ c xs e)
    (he : 0xfff7 ≤ e) (hn : readSize + xs.length * getClusterSize m₀ ≤ n) :
    CopiesWithin (buffer + readSize) (xs.length * getClusterSize m₀)
      (loopCopies ttbr0 (getClusterSize m₀) (getFsBpb m₀) size fuel c (buffer + readSize) readSize m) := by
  induction xs generalizing c m readSize fuel with
  | nil =>
      obtain rfl := Path.nil_iff.mp hp
      cases fuel with
      | zero => exact .nil
      | succ fuel =>
          rw [loopCopies, if_neg (by omega)]
          exact .nil
  | cons x xs ih =>
      obtain ⟨rfl, hrest⟩ := Path.cons_iff.mp hp
      rw [List.length_cons, Nat.succ_mul] at hn ⊢
      have hu := Undisturbed.below (m := m₀) hl.below [x]
      have hcs := getClusterSize_lt m₀
      have hsmall := hl.small
      have hmod : (readSize + getClusterSize m₀) % 2 ^ 32 = readSize + getClusterSize m₀ := Nat.mod_eq_of_lt (by omega)
      cases fuel with
      | zero => exact .nil
      | succ fuel =>
          by_cases hgo : readSize < size
          · cases Nat.lt_or_ge (readSize + getClusterSize m₀) size with
            | inr hend =>
                rw [loopCopies_last hgo (Nat.lt_succ_of_le x.2.2) x.2.1 (by rwa [hmod])]
                exact .cons (by omega) .nil
            | inl hnext =>
                have hlen : (clusterData m₀ x).length = getClusterSize m₀ := length_clusterData m₀ x
                have hput : SameOutside m₀ (m.put (dst + readSize) (clusterData m₀ x)) dst n :=
                  hm.trans (SameOutside.put (by omega))
                have hfit : readSize + getClusterSize m₀ ≤ n := by omega
                have hapart := hu.apart_start hm List.mem_cons_self hfit (Nat.le_refl _)
                have hout := hl.lands.copyOut hm hapart hfit
                rw [hu.bytes hm List.mem_cons_self] at hout
                have hcopies := ih (readSize + getClusterSize m₀) fuel hput hrest (by omega)
                rw [loopCopies_round hgo (Nat.lt_succ_of_le x.2.2) x.2.1 (by omega), hout]
                dsimp only
                rw [hu.value hput x List.mem_cons_self, hmod, Nat.add_assoc]
                refine .cons (Nat.le_add_left _ _) ?_
                rwa [Nat.add_sub_cancel, Nat.add_assoc]
          · rw [loopCopies, if_neg (by omega)]
            exact .nil

theorem rawCopies_path (hl : LoadsTo m ttbr0 buffer n dst) (hp : Path m c xs e) (he : 0xfff7 ≤ e)
    (hn : xs.length * getClusterSize m ≤ n) : CopiesWithin buffer n (rawCopies ttbr0 c buffer 0 size m) := by
  simp only [rawCopies, Nat.zero_div, skipClusters, copiesFrom, Nat.zero_mod, ne_eq, not_true_eq_false, if_false]
  exact (loopCopies_path 0 readFuel hl (.refl m dst n) hp he (by omega)).mono hn

end ArmOs
