import ArmOs.Fat.Lemmas.Descriptor
import ArmOs.Fat.Lemmas.Carry
import ArmOs.Kernel.System

/-!
# Reading files

The data that a read returns on a well-formed image, when a read trips an assertion, when the loops of a read end
on any table, and how far a read writes.
-/

namespace ArmOs

open Lib

variable {m : Mem} {volume ttbr0 c buffer position size dst : Nat} {xs : List Cluster}

/-! ## The data of a read -/

/-- `read_raw_data` returns the wanted slice of the clusters of the chain, and writes nothing else. -/
theorem read_chain (hc : IsChain m c xs) (hv : InVolume m volume xs) (hsize : 0 < size)
    (hle : position + size ≤ xs.length * getClusterSize m) (hl : Lands m ttbr0 buffer size dst)
    (hoff : OffImage m volume dst size) :
    ∃ m', readRawData ttbr0 c buffer position size m = .ok (size, m') ∧
      m'.bytes dst size = ((fileBytes m xs).drop position).take size ∧ SameOutside m m' dst size := by
  obtain ⟨e, he, hp⟩ := id hc
  have hvolume := Nat.lt_of_le_of_lt (hc.length_mul_le hv) hv.lt
  have hread := readRawData_path hp (.ofVolume hv hoff) hl hvolume (by omega) hle
  have hlen : (((fileBytes m xs).drop position).take size).length = size := by
    rw [← hv.pathData_eq, List.length_take, List.length_drop, length_pathData, Nat.min_eq_left (by omega)]
  rw [hv.pathData_eq] at hread
  refine ⟨_, hread, ?_, SameOutside.put (o := 0) (by omega)⟩
  have hput := Mem.bytes_put m dst (((fileBytes m xs).drop position).take size)
  rwa [hlen] at hput

/-- The start-up image with a second cluster for `INIT.BIN`. -/
def twoClusterMem : Mem := Mem.write (Mem.write smallMem 2 (fsBase + 516) 3) 2 (fsBase + 518) 0xffff

/-- Four bytes across the boundary of the two clusters, copied to a heap page. -/
theorem read_chain_two :
    ∃ m', readRawData 0 2 (heapMemoryEnd - pageSize) 510 4 twoClusterMem = .ok (4, m') ∧
      m'.bytes (heapMemoryEnd - pageSize) 4 =
        ((fileBytes twoClusterMem [⟨2, by decide⟩, ⟨3, by decide⟩]).drop 510).take 4 ∧
      SameOutside twoClusterMem m' (heapMemoryEnd - pageSize) 4 :=
  read_chain ⟨0xffff, by decide, by decide⟩
    (show InVolume twoClusterMem 4096 _ from ⟨by decide, by decide, by decide, by decide⟩) (by decide)
    (by decide)
    (Lands.upper _ _ _ (by decide)) (.inl (by decide))

/-! ## Assertions -/

/-- A read of a file inside of its bounds completes exactly if it does not begin where the last cluster ends, or the
file has no cluster; there it fails the assertion of `read_raw_data`. -/
theorem read_completes_iff {s : Kernel} {p : Proc} {fd : Int} {d f : Nat} (hd : Descriptor s p fd d f)
    (hw : WellFormed s.memory.mem volume) (hcached : Cached s.memory.mem f (s.fs.fcbTable f))
    (hf : IsFile s.memory.mem volume f xs)
    (hle : (s.fs.fileDescTable d).position + size ≤ (s.fs.fcbTable f).fileSize)
    (hl : Lands s.memory.mem s.ttbr0 buffer size dst) (hoff : OffImage s.memory.mem volume dst size) :
    ((∃ r, readFile p fd buffer size s = .ok r) ↔
      ((s.fs.fileDescTable d).position < xs.length * getClusterSize s.memory.mem ∨ xs = [])) ∧
    ((∀ site, readFile p fd buffer size s ≠ .error (.assert site)) ↔
      ((s.fs.fileDescTable d).position < xs.length * getClusterSize s.memory.mem ∨ xs = [])) := by
  have hrefused : ¬Refused (s.fs.fileDescTable d).position size (s.fs.fcbTable f).fileSize := by
    unfold Refused
    have hmod := Nat.mod_le ((s.fs.fileDescTable d).position + size) (2 ^ 32)
    omega
  rw [hcached.fileSize] at hle
  rw [hd.readFile_eq hrefused, hcached.clusterIndex]
  by_cases hlt : (s.fs.fileDescTable d).position < xs.length * getClusterSize s.memory.mem ∨ xs = []
  · rw [hf.readRawData hl hoff hle hlt]
    exact ⟨iff_of_true ⟨_, rfl⟩ hlt, iff_of_true nofun hlt⟩
  · obtain ⟨hge, hne⟩ := not_or.mp hlt
    have hcovers := hf.covers
    have hend : (s.fs.fileDescTable d).position = xs.length * getClusterSize s.memory.mem := by omega
    obtain ⟨e, he, hp⟩ := hf.chain.resolve_left hne
    have hskip := hp.skipClusters_length (Nat.le_trans (by decide) he) hne
    rw [readRawData_eq, hend, Nat.mul_div_cancel _ hw.clusterSize, hskip]
    rw [hend] at hlt
    refine ⟨iff_of_false ?_ hlt, iff_of_false ?_ hlt⟩
    · rintro ⟨r, hr⟩
      cases hr
    · intro h
      exact h .readRawData rfl

theorem smallMem_file : IsFile smallMem 4096 0 [⟨2, by decide⟩] where
  chain := .inr ⟨0xffff, by decide, by decide⟩
  volume := ⟨by decide, by decide, by decide, by decide⟩
  covers := by decide

theorem smallMem_wellFormed : WellFormed smallMem 4096 where
  clusterSize := by decide
  block := by decide
  lt := by decide
  directory := by decide
  files := by
    intro i hi
    have hfirst : ∀ i < 16, smallMem (dirEntry smallMem i) ≠ entryEmpty → i = 0 := by decide
    have hcount : getRootDirectoryCount smallMem = 16 := by decide
    obtain rfl := hfirst i (hcount ▸ hi.1) hi.2.1
    exact ⟨_, smallMem_file⟩

/-- The first slot of every process is at the beginning of `INIT.BIN` of the start-up image. -/
def initBinState : Kernel :=
  { Kernel.reset smallLayout smallMem with
    processTable := fun _ => { Process.zero with file := fun _ => some 0 }
    fs :=
      { fcbTable := fun _ => { FCB.zero with clusterIndex := 2, fileSize := 4, count := 1 }
        fileDescTable := fun _ => ⟨some 0, 0, 1⟩
        fcbPage := 0
        fileDescPage := 0 } }

/-- The read of all of `INIT.BIN` completes. -/
theorem read_completes_small :
    ((∃ r, readFile idle 0 (heapMemoryEnd - pageSize) 4 initBinState = .ok r) ↔
      (0 < [(⟨2, by decide⟩ : Cluster)].length * getClusterSize smallMem ∨ [(⟨2, by decide⟩ : Cluster)] = [])) ∧
    ((∀ site, readFile idle 0 (heapMemoryEnd - pageSize) 4 initBinState ≠ .error (.assert site)) ↔
      (0 < [(⟨2, by decide⟩ : Cluster)].length * getClusterSize smallMem ∨ [(⟨2, by decide⟩ : Cluster)] = [])) :=
  read_completes_iff (s := initBinState) (d := 0) (f := 0) ⟨rfl, rfl⟩ smallMem_wellFormed
    ⟨by decide, by decide⟩ smallMem_file (by decide) (Lands.upper _ _ _ (by decide))
    (.inl (by decide))

/-- The start-up image with an `INIT.BIN` that fills its cluster. -/
def fullClusterMem : Mem := Mem.write smallMem 4 (fsBase + 1052) 512

/-- The first process reads a file of one full cluster to its end, and then no byte more. -/
theorem empty_read_halts : ∃ s ls t, boot smallLayout fullClusterMem = .ok s ∧ Run (Step smallLayout) s ls t ∧
    ls.map Label.event = [.timer true, .svc (.openFile (cstring ['I', 'N', 'I', 'T', '.', 'B', 'I', 'N'])),
      .svc (.readFile 0 userBase 512)] ∧
    (t.fs.fileDescTable 1).fcb = some 0 ∧ (t.fs.fileDescTable 1).position = 512 ∧ (t.fs.fcbTable 0).fileSize = 512 ∧
    readFile t.current 0 userBase 0 t = .error (.assert .readRawData) := by
  have h : (smallOn fullClusterMem [.timer true, .svc (.openFile (cstring ['I', 'N', 'I', 'T', '.', 'B', 'I', 'N'])),
      .svc (.readFile 0 userBase 512)]).map (fun r =>
      decide ((r.2.fs.fileDescTable 1).fcb = some 0 ∧ (r.2.fs.fileDescTable 1).position = 512 ∧
        (r.2.fs.fcbTable 0).fileSize = 512 ∧
        stopped (readFile r.2.current 0 userBase 0 r.2) = some (.assert .readRawData))) = some true := by
    decide +kernel
  obtain ⟨⟨ls, t⟩, hr, hd⟩ := Option.map_eq_some_iff.mp h
  obtain ⟨s, hboot, hall⟩ := smallOn_boot hr
  obtain ⟨hfcb, hposition, hfile, hstop⟩ := of_decide_eq_true hd
  exact ⟨s, ls, t, hboot, performAll_run hall, performAll_events hall, hfcb, hposition, hfile,
    stopped_eq_some.mp hstop⟩

/-! ## Termination -/

/-- `read_raw_data` ends exactly if the chain leaves the clusters, or the wanted bytes end in the first cluster,
or the counter can get as far as the wanted size. -/
theorem read_ends_iff (ht : TableWithin m volume) (hcs : 0 < getClusterSize m)
    (hbuffer : getFsBpb m + volume ≤ buffer) (hc : c < 2 ^ 16) (hsize : size < 2 ^ 32) :
    Ends (readRawData ttbr0 c buffer position size m) ↔
      ChainLeaves m c position ∨ WithinCluster m position size ∨
        size ≤ counterMax m (getClusterSize m - position % getClusterSize m) := by
  have hrefl : SameImage m m volume := fun _ _ _ => rfl
  have hmod := Nat.mod_lt position hcs
  have hcluster := getClusterSize_lt m
  rw [readRawData_eq]
  by_cases hpass : ∀ i, 0 < i → i ≤ position / getClusterSize m → link m c i < 0xfff7
  · rw [skipClusters_link hpass, ok_bind, readFrom]
    split
    · rename_i hoffset
      cases Nat.lt_or_ge (link m c (position / getClusterSize m)) 2 with
      | inl hlow =>
          rw [getClusterOffset_of_lt hlow]
          exact iff_of_true (.inr ⟨_, rfl⟩) (.inl (.inr ⟨_, Nat.le_refl _, hlow⟩))
      | inr hge =>
          rw [getClusterOffset_eq hge, ok_bind]
          by_cases hwithin : (position % getClusterSize m + size) % 2 ^ 32 ≤ getClusterSize m
          · -- the head is the whole read
            obtain ⟨m', hcopy, -⟩ := hrefl.copyOut hbuffer ttbr0
              (clusterOffset m (link m c (position / getClusterSize m)) + getFsBpb m + position % getClusterSize m) size
            simp only [if_pos hwithin, hcopy, ok_bind, readFuel, readLoop_done (Nat.le_refl size)]
            exact iff_of_true (.inl ⟨_, rfl⟩) (.inr (.inl ⟨hoffset, hwithin⟩))
          · obtain ⟨m', hcopy, hm'⟩ := hrefl.copyOut hbuffer ttbr0
              (clusterOffset m (link m c (position / getClusterSize m)) + getFsBpb m + position % getClusterSize m)
              (getClusterSize m - position % getClusterSize m)
            have hmore : ¬size ≤ getClusterSize m - position % getClusterSize m := by omega
            have hleaves := chainLeaves_iff (n := position / getClusterSize m + 1) hpass (.inr ⟨hoffset, rfl, hge⟩)
            have hnext := ht.value hm' (link_lt (m := m) hc (position / getClusterSize m))
            simp only [if_neg hwithin, hcopy, ok_bind, hnext, ← link_succ]
            rw [readLoop_ends_iff ht (Nat.le_add_right_of_le hbuffer) hm' (by omega), ← hleaves, WithinCluster]
            simp only [hmore, hwithin, and_false, false_or]
    · rename_i hzero
      have hzero : position % getClusterSize m = 0 := Decidable.not_not.mp hzero
      have hleaves := chainLeaves_iff (n := position / getClusterSize m) hpass (.inl ⟨hzero, rfl⟩)
      have hmax : counterMax m (getClusterSize m) = counterMax m 0 := by
        rw [counterMax, counterMax, Nat.mod_eq_zero_of_dvd (Nat.gcd_dvd_left _ _), Nat.zero_mod]
      rw [readLoop_ends_iff ht hbuffer hrefl (by decide), ← hleaves, WithinCluster, hzero, Nat.sub_zero, hmax]
      have hsmall : size ≤ 0 → size ≤ counterMax m 0 := fun h => h.trans (Nat.zero_le _)
      simp only [ne_eq, not_true_eq_false, false_and, false_or]
      exact ⟨fun h => h.elim (fun hs => .inr (hsmall hs)) id, .inr⟩
  · simp only [not_forall, Nat.not_lt] at hpass
    obtain ⟨i, hi, hin, hmark⟩ := hpass
    rw [skipClusters_mark hi hin hmark]
    exact iff_of_true (.inr ⟨_, rfl⟩) (.inl (.inl ⟨i, .inl hi, hmark⟩))

/-- On a chain that ends nowhere, a small read ends all the same. -/
theorem read_ends_small :
    Ends (readRawData 0 2 (fsBase + 2 ^ 17) 0 4 (selfLinkMem 512 1)) ↔
      ChainLeaves (selfLinkMem 512 1) 2 0 ∨ WithinCluster (selfLinkMem 512 1) 0 4 ∨
        4 ≤ counterMax (selfLinkMem 512 1) (getClusterSize (selfLinkMem 512 1) - 0 % getClusterSize (selfLinkMem 512 1)) :=
  read_ends_iff selfLinkMem_table (by rw [selfLinkMem_clusterSize (by decide) (by decide)]; decide)
    (by rw [selfLinkMem_bpb]) (by decide) (by decide)

/-- The first slot of every process is at `position` in a file of `fileSize` bytes whose only cluster links to
itself. -/
def selfLinkState (bps spc position fileSize : Nat) : Kernel :=
  { Kernel.reset smallLayout (selfLinkMem bps spc) with
    processTable := fun _ => { Process.zero with file := fun _ => some 0 }
    fs :=
      { fcbTable := fun _ => { FCB.zero with clusterIndex := 2, fileSize := fileSize, count := 1 }
        fileDescTable := fun _ => ⟨some 0, position, 1⟩
        fcbPage := 0
        fileDescPage := 0 } }

theorem selfLinkState_descriptor (bps spc position fileSize : Nat) (p : Proc) :
    Descriptor (selfLinkState bps spc position fileSize) p 0 0 0 := ⟨rfl, rfl⟩

/-- A read of all of a file of 0xffffffff bytes, whose only cluster has 512 bytes and links to itself, goes round
for ever: the counter comes back to 0. -/
theorem self_link_hangs :
    ¬Ends (readFile idle 0 (fsBase + 2 ^ 17) 0xffffffff (selfLinkState 512 1 0 0xffffffff)) := by
  have hcluster : getClusterSize (selfLinkMem 512 1) = 512 := selfLinkMem_clusterSize (by decide) (by decide)
  have hloop : readLoop smallLayout.bootPgd (getClusterSize (selfLinkMem 512 1)) (getFsBpb (selfLinkMem 512 1))
      0xffffffff readFuel 2 (fsBase + 2 ^ 17) 0 (selfLinkMem 512 1) = .error .hang := by
    refine readLoop_hang selfLinkMem_table (fun _ _ _ => rfl) (by rw [selfLinkMem_bpb]) (by decide)
      fun j hlast => ?_
    have hle : ∀ i, (0 + i * 512) % 2 ^ 32 ≤ 2 ^ 32 - 512 := fun i => add_mul_mod_le (a := 512) (by decide) i
    have hj := hle j
    have hnext := hle (j + 1)
    rw [Nat.succ_mul, ← Nat.add_assoc, ← Nat.mod_add_mod] at hnext
    rw [link_self selfLinkMem_link, hcluster] at hlast
    unfold IsLast at hlast
    rw [hcluster] at hlast
    omega
  have hraw : readRawData smallLayout.bootPgd 2 (fsBase + 2 ^ 17) 0 0xffffffff (selfLinkMem 512 1) = .error .hang := by
    rw [readRawData_eq, Nat.zero_div, Nat.zero_mod, skipClusters, ok_bind, readFrom, if_neg (by decide)]
    exact hloop
  have hread : readFile idle 0 (fsBase + 2 ^ 17) 0xffffffff (selfLinkState 512 1 0 0xffffffff) = .error .hang := by
    rw [(selfLinkState_descriptor 512 1 0 0xffffffff idle).readFile_eq (by decide)]
    exact bind_eq_error.mpr (.inl hraw)
  rw [hread]
  exact not_ends_hang

/-! ## Bounds -/

/-- The copies of `read_file` through the table entry `d`. -/
def fileCopies (s : Kernel) (d f buffer size : Nat) : List (Nat × Nat) :=
  if Refused (s.fs.fileDescTable d).position size (s.fs.fcbTable f).fileSize then []
  else
    rawCopies s.ttbr0 (s.fs.fcbTable f).clusterIndex buffer (s.fs.fileDescTable d).position size s.memory.mem

/-- The read is refused or lies in the file, its copies stay within the rest of the file's length, and the position
stays within the file. -/
def ReadBounded (s : Kernel) (p : Proc) (fd : Int) (d f buffer size : Nat) : Prop :=
  (readFile p fd buffer size s = .ok (0xffffffff, s) ∨
    (s.fs.fileDescTable d).position + size ≤ (s.fs.fcbTable f).fileSize) ∧
  CopiesWithin buffer ((s.fs.fcbTable f).fileSize - (s.fs.fileDescTable d).position) (fileCopies s d f buffer size) ∧
  ∀ n t, readFile p fd buffer size s = .ok (n, t) →
    (t.fs.fileDescTable d).position ≤ (t.fs.fcbTable f).fileSize

/-- The 32-bit sums of a read keep it in bounds: the test refuses it, or neither `position + size` nor the counter
of the copy loop loses a carry. -/
def SumsFit (clusterSize position size fileSize : Nat) : Prop :=
  Refused position size fileSize ∨ position + size < 2 ^ 32 ∧ position + size ≤ countable clusterSize position

/-- The sums of a read from the cluster `c` fit on the table as it is: the counter may be too small for the size, if
the chain stops before it is full. -/
def SumsFitOn (m : Mem) (c position size fileSize : Nat) : Prop :=
  Refused position size fileSize ∨ position + size < 2 ^ 32 ∧
    (position + size ≤ countable (getClusterSize m) position ∨
      ChainStops m c position ((position + (2 ^ 32 - 1)) / getClusterSize m))

/-- What is left to prove of a read in the file. -/
theorem Descriptor.bounded_of_copies {s : Kernel} {p : Proc} {fd : Int} {d f : Nat} (hd : Descriptor s p fd d f)
    (hcs : 0 < getClusterSize s.memory.mem) (hsize : size < 2 ^ 32)
    (hrefused : ¬Refused (s.fs.fileDescTable d).position size (s.fs.fcbTable f).fileSize)
    (hle : (s.fs.fileDescTable d).position + size ≤ (s.fs.fcbTable f).fileSize)
    (hsum : (s.fs.fileDescTable d).position + size < 2 ^ 32)
    (hcopies : CopiesWithin buffer size
      (rawCopies s.ttbr0 (s.fs.fcbTable f).clusterIndex buffer (s.fs.fileDescTable d).position size s.memory.mem)) :
    ReadBounded s p fd d f buffer size := by
  refine ⟨.inr hle, ?_, fun n t ht => ?_⟩
  · rw [fileCopies, if_neg hrefused]
    exact hcopies.mono (by omega)
  · rw [hd.readFile_eq hrefused] at ht
    obtain ⟨⟨k, m'⟩, hraw, ht⟩ := bind_eq_ok.mp ht
    cases ht
    have hk := readRawData_le hcs hsize hraw
    rw [advance_position, advance_fcbTable, Nat.mod_eq_of_lt (by omega)]
    omega

theorem Descriptor.read_bounded {s : Kernel} {p : Proc} {fd : Int} {d f : Nat} (hd : Descriptor s p fd d f)
    (buffer : Nat) (hcs : 0 < getClusterSize s.memory.mem) (hsize : size < 2 ^ 32)
    (hp : (s.fs.fileDescTable d).position ≤ (s.fs.fcbTable f).fileSize)
    (hfit : SumsFit (getClusterSize s.memory.mem) (s.fs.fileDescTable d).position size (s.fs.fcbTable f).fileSize) :
    ReadBounded s p fd d f buffer size := by
  by_cases hrefused : Refused (s.fs.fileDescTable d).position size (s.fs.fcbTable f).fileSize
  · have hread := hd.readFile_refused buffer hrefused
    refine ⟨.inl hread, ?_, fun n t ht => ?_⟩
    · rw [fileCopies, if_pos hrefused]
      exact .nil
    · rw [hread] at ht
      cases ht
      exact hp
  · obtain ⟨hsum, hend⟩ := hfit.resolve_left hrefused
    have hle : (s.fs.fileDescTable d).position + size ≤ (s.fs.fcbTable f).fileSize := by
      unfold Refused at hrefused
      rw [Nat.mod_eq_of_lt hsum] at hrefused
      exact Nat.not_lt.mp hrefused
    exact hd.bounded_of_copies hcs hsize hrefused hle hsum (rawCopies_within hcs hsum hend)

/-- To a buffer behind the volume a read stays in bounds exactly if its sums fit on the table. -/
theorem Descriptor.bounded_iff_table {s : Kernel} {p : Proc} {fd : Int} {d f : Nat} (hd : Descriptor s p fd d f)
    (hcs : 0 < getClusterSize s.memory.mem) (hsize : size < 2 ^ 32)
    (hp : (s.fs.fileDescTable d).position ≤ (s.fs.fcbTable f).fileSize) (hf : (s.fs.fcbTable f).fileSize < 2 ^ 32)
    (hc : (s.fs.fcbTable f).clusterIndex < 2 ^ 16) (ht : TableWithin s.memory.mem volume)
    (hbuffer : getFsBpb s.memory.mem + volume ≤ buffer) :
    ReadBounded s p fd d f buffer size ↔ SumsFitOn s.memory.mem (s.fs.fcbTable f).clusterIndex
      (s.fs.fileDescTable d).position size (s.fs.fcbTable f).fileSize := by
  by_cases hrefused : Refused (s.fs.fileDescTable d).position size (s.fs.fcbTable f).fileSize
  · exact iff_of_true (hd.read_bounded buffer hcs hsize hp (.inl hrefused)) (.inl hrefused)
  · constructor
    · rintro ⟨hread, hcopies, -⟩
      have hle := hread.resolve_left (hd.not_refused hrefused)
      have hsum : (s.fs.fileDescTable d).position + size < 2 ^ 32 := by omega
      rw [fileCopies, if_neg hrefused] at hcopies
      refine .inr ⟨hsum, or_iff_not_imp_left.mpr fun hend => ?_⟩
      have hwithin := rawCopies_within_iff (n := (s.fs.fcbTable f).fileSize - (s.fs.fileDescTable d).position) s.ttbr0 ht
        hcs hbuffer hc hsum (Nat.not_le.mp hend) (by omega) (by omega)
      exact hwithin.mp hcopies
    · rintro (hnot | ⟨hsum, hfit⟩)
      · exact absurd hnot hrefused
      · by_cases hend : (s.fs.fileDescTable d).position + size ≤
            countable (getClusterSize s.memory.mem) (s.fs.fileDescTable d).position
        · exact hd.read_bounded buffer hcs hsize hp (.inr ⟨hsum, hend⟩)
        · have hle : (s.fs.fileDescTable d).position + size ≤ (s.fs.fcbTable f).fileSize := by
            unfold Refused at hrefused
            rw [Nat.mod_eq_of_lt hsum] at hrefused
            exact Nat.not_lt.mp hrefused
          have hwithin := rawCopies_within_iff s.ttbr0 ht hcs hbuffer hc hsum (Nat.not_le.mp hend) (Nat.le_refl size) hsize
          exact hd.bounded_of_copies hcs hsize hrefused hle hsum (hwithin.mpr (hfit.resolve_left hend))

/-- Where the sums do not fit, the test lets a read through that goes on behind the file, or the copy loop goes on
behind the wanted bytes. -/
theorem selfLinkState_unbounded {bps spc fileSize : Nat} (hf : fileSize < 2 ^ 32) (hb : bps < 2 ^ 16)
    (hs : spc < 2 ^ 8) (hcs : 0 < bps * spc) (hfit : ¬SumsFit (bps * spc) position size fileSize)
    (p : Proc) : ¬ReadBounded (selfLinkState bps spc position fileSize) p 0 0 0 (fsBase + 2 ^ 17) size := by
  have hd := selfLinkState_descriptor bps spc position fileSize p
  obtain ⟨hrefused, hsum⟩ := not_or.mp hfit
  rintro ⟨hread, hcopies, -⟩
  have hle : position + size ≤ fileSize :=
    hread.resolve_left (hd.not_refused hrefused)
  have hend : countable (bps * spc) position < position + size := by
    refine Nat.not_le.mp fun hend => hsum ⟨by omega, hend⟩
  have hcluster : getClusterSize (selfLinkMem bps spc) = bps * spc := selfLinkMem_clusterSize hb hs
  have hraw : fileCopies (selfLinkState bps spc position fileSize) 0 0 (fsBase + 2 ^ 17) size =
      rawCopies smallLayout.bootPgd 2 (fsBase + 2 ^ 17) position size (selfLinkMem bps spc) := if_neg hrefused
  have hcopies : CopiesWithin (fsBase + 2 ^ 17) (fileSize - position)
      (rawCopies smallLayout.bootPgd 2 (fsBase + 2 ^ 17) position size (selfLinkMem bps spc)) := hraw ▸ hcopies
  refine not_chainStops_self selfLinkMem_link ((rawCopies_within_iff _ selfLinkMem_table ?_ ?_ (by decide) (by omega)
    ?_ (by omega) (by omega)).mp hcopies)
  · rw [hcluster]
    exact hcs
  · rw [selfLinkMem_bpb]
  · rw [hcluster]
    exact hend

/-- A read of 0xffffffff bytes at position 1 of a file of four bytes: the sum is 0 in 32 bits. -/
theorem wrapped_read_unbounded :
    ¬ReadBounded (selfLinkState 512 1 1 4) idle 0 0 0 (fsBase + 2 ^ 17) 0xffffffff := by
  rintro ⟨hread, -⟩
  rcases hread with hread | hle
  · exact (selfLinkState_descriptor 512 1 1 4 idle).not_refused (by decide) hread
  · exact absurd hle (by decide)

/-- One call of `read_file`. -/
structure ReadCall where
  process : Proc
  fd : Int
  buffer : Nat
  size : Nat

def ReadCall.Step (s : Kernel) (l : ReadCall) (t : Kernel) : Prop :=
  ∃ n, readFile l.process l.fd l.buffer l.size s = .ok (n, t)

/-- The sums of the call fit. -/
def ReadCall.Fits (s : Kernel) (l : ReadCall) : Prop :=
  0 < getClusterSize s.memory.mem ∧ l.size < 2 ^ 32 ∧ ∀ d f, Descriptor s l.process l.fd d f →
    SumsFit (getClusterSize s.memory.mem) (s.fs.fileDescTable d).position l.size (s.fs.fcbTable f).fileSize

/-- No open table entry is behind the end of its file. -/
def PositionsWithin (s : Kernel) : Prop :=
  ∀ d f, (s.fs.fileDescTable d).fcb = some f → (s.fs.fileDescTable d).position ≤ (s.fs.fcbTable f).fileSize

theorem ReadCall.positionsWithin {s t : Kernel} {l : ReadCall} (h : PositionsWithin s) (hfit : l.Fits s)
    (hstep : l.Step s t) : PositionsWithin t := by
  obtain ⟨n, hread⟩ := hstep
  obtain ⟨hcs, hsize, hfit⟩ := hfit
  obtain ⟨d, f, hd⟩ := exists_descriptor hread
  have hbounded := hd.read_bounded l.buffer hcs hsize (h d f hd.fcb) (hfit d f hd)
  by_cases hrefused : Refused (s.fs.fileDescTable d).position l.size (s.fs.fcbTable f).fileSize
  · rw [hd.readFile_refused l.buffer hrefused] at hread
    cases hread
    exact h
  · have hposition := hbounded.2.2 n t hread
    rw [hd.readFile_eq hrefused] at hread
    obtain ⟨⟨k, m'⟩, hraw, hread⟩ := bind_eq_ok.mp hread
    cases hread
    intro d' f' hf'
    rw [advance_fcb] at hf'
    by_cases hne : d' = d
    · subst hne
      obtain rfl : f' = f := Option.some.inj (hf'.symm.trans hd.fcb)
      exact hposition
    · rw [advance_of_ne hne]
      exact h d' f' hf'

/-- A read request is kept within the file, whatever the table and the buffer are, exactly if its 32-bit sums fit;
in every run of reads whose sums fit, no position gets behind the end of its file; and to a buffer behind the volume
the request is kept within the file exactly if its sums fit on the table that is there. -/
theorem read_bounded_iff {bps spc fileSize : Nat} (hp : position ≤ fileSize) (hf : fileSize < 2 ^ 32)
    (hsize : size < 2 ^ 32) (hb : bps < 2 ^ 16) (hs : spc < 2 ^ 8) (hcs : 0 < bps * spc) :
    ((∀ s p fd d f buffer, Descriptor s p fd d f → (s.fs.fileDescTable d).position = position →
        (s.fs.fcbTable f).fileSize = fileSize → Bpb.bytesPerSector s.memory.mem = bps →
        Bpb.sectorsPerCluster s.memory.mem = spc → ReadBounded s p fd d f buffer size) ↔
      SumsFit (bps * spc) position size fileSize) ∧
    (∀ s ls t, Run (Guarded (fun s (l : ReadCall) => l.Fits s) fun s l => l.Step s) s ls t →
      PositionsWithin s → PositionsWithin t) ∧
    ∀ s p fd d f buffer volume, Descriptor s p fd d f → (s.fs.fileDescTable d).position = position →
      (s.fs.fcbTable f).fileSize = fileSize → Bpb.bytesPerSector s.memory.mem = bps →
      Bpb.sectorsPerCluster s.memory.mem = spc → (s.fs.fcbTable f).clusterIndex < 2 ^ 16 →
      TableWithin s.memory.mem volume → getFsBpb s.memory.mem + volume ≤ buffer →
      (ReadBounded s p fd d f buffer size ↔
        SumsFitOn s.memory.mem (s.fs.fcbTable f).clusterIndex position size fileSize) := by
  refine ⟨⟨fun h => ?_, fun hfit s p fd d f buffer hd hposition hfile hbps hspc => ?_⟩, fun s ls t hrun hs => ?_,
    fun s p fd d f buffer volume hd hposition hfile hbps hspc hc ht hbuffer => ?_⟩
  · by_contra hfit
    have hbounded := h (selfLinkState bps spc position fileSize) idle 0 0 0 (fsBase + 2 ^ 17)
      (selfLinkState_descriptor bps spc position fileSize idle) rfl rfl (selfLinkMem_bytesPerSector hb)
      (selfLinkMem_sectorsPerCluster hs)
    exact selfLinkState_unbounded hf hb hs hcs hfit idle hbounded
  · have hcluster : getClusterSize s.memory.mem = bps * spc := by rw [getClusterSize, hbps, hspc]
    subst hposition hfile
    exact hd.read_bounded buffer (by rw [hcluster]; exact hcs) hsize hp (by rw [hcluster]; exact hfit)
  · exact hrun.invariant (I := PositionsWithin) hs fun a l b ha hl => ReadCall.positionsWithin ha hl.1 hl.2
  · have hcluster : getClusterSize s.memory.mem = bps * spc := by rw [getClusterSize, hbps, hspc]
    subst hposition hfile
    exact hd.bounded_iff_table (by rw [hcluster]; exact hcs) hsize hp hf hc ht hbuffer

/-- The first two bytes of a file of four, on clusters of 512 bytes. -/
theorem read_bounded_small :
    ((∀ s p fd d f buffer, Descriptor s p fd d f → (s.fs.fileDescTable d).position = 0 →
        (s.fs.fcbTable f).fileSize = 4 → Bpb.bytesPerSector s.memory.mem = 512 →
        Bpb.sectorsPerCluster s.memory.mem = 1 → ReadBounded s p fd d f buffer 2) ↔ SumsFit (512 * 1) 0 2 4) ∧
    (∀ s ls t, Run (Guarded (fun s (l : ReadCall) => l.Fits s) fun s l => l.Step s) s ls t →
      PositionsWithin s → PositionsWithin t) ∧
    (ReadBounded (selfLinkState 512 1 0 4) idle 0 0 0 (fsBase + 2 ^ 17) 2 ↔ SumsFitOn (selfLinkMem 512 1) 2 0 2 4) := by
  obtain ⟨hnumbers, hruns, htable⟩ := @read_bounded_iff 0 2 512 1 4 (by decide) (by decide) (by decide) (by decide)
    (by decide) (by decide)
  refine ⟨hnumbers, hruns, ?_⟩
  exact htable (selfLinkState 512 1 0 4) idle 0 0 0 (fsBase + 2 ^ 17) (2 ^ 17) (selfLinkState_descriptor 512 1 0 4 idle)
    rfl rfl (selfLinkMem_bytesPerSector (by decide)) (selfLinkMem_sectorsPerCluster (by decide)) (by decide)
    selfLinkMem_table (show getFsBpb (selfLinkMem 512 1) + 2 ^ 17 ≤ fsBase + 2 ^ 17 by rw [selfLinkMem_bpb])

end ArmOs
