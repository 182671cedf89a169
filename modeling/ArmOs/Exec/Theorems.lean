import ArmOs.Exec.Lemmas.Replace
import ArmOs.Exec.Lemmas.Setup
import ArmOs.Pages.Theorems

/-!
# Loading programs

Where `exec` and `setup_uvm` write, when they notice that a file does not fit the page or that its clusters end too
early, and what the new program finds.
-/

namespace ArmOs

open Lib

variable {L : Layout} {m : Mem} {s t : Kernel} {p : Proc} {name : Nat → UInt8} {slot : Fin numFile}
  {d pgd pud pmd frame : Nat} {xs : List Nat}

/-- The current process of a state in which page ownership is in order. -/
theorem PageInv.execReady (h : PageInv L s xs) (hs : Good s) (hc : s.current ≠ idle)
    (hslot : freeSlot (s.proc s.current) = some slot) (hdesc : freeFileDesc s.fs = some d)
    (hfound : searchFile s.memory.mem name ≠ 0xffffffff) :
    ExecReady L s s.current name slot d (s.proc s.current).pageMap (s.pageOf s.current .frame) := by
  obtain ⟨hu, httbr0, hmaps⟩ := h.current hs hc
  obtain ⟨hle, hend⟩ := hs.tf_stack hc
  have hne : s.pageOf s.current .stack ≠ s.pageOf s.current .frame := h.ne hu hu (.inr nofun)
  have hdisjoint := (h.page hu .stack).disjoint (h.page hu .frame) hne
  exact ⟨hslot, hdesc, hfound, httbr0, hmaps, by omega⟩

/-- A file that the current process can open. -/
def CanOpen (s : Kernel) (name : Nat → UInt8) : Prop :=
  s.current ≠ idle ∧ (freeSlot (s.proc s.current)).isSome ∧ (freeFileDesc s.fs).isSome ∧
    searchFile s.memory.mem name ≠ 0xffffffff

instance (s : Kernel) (name : Nat → UInt8) : Decidable (CanOpen s name) :=
  inferInstanceAs (Decidable (s.current ≠ idle ∧ (freeSlot (s.proc s.current)).isSome ∧ (freeFileDesc s.fs).isSome ∧
    searchFile s.memory.mem name ≠ 0xffffffff))

theorem CanOpen.execReady (h : CanOpen s name) (hs : Good s) (hp : PageInv L s xs) :
    ∃ slot d, ExecReady L s s.current name slot d (s.proc s.current).pageMap (s.pageOf s.current .frame) := by
  obtain ⟨hc, hslot, hdesc, hfound⟩ := h
  obtain ⟨slot, hslot⟩ := Option.isSome_iff_exists.mp hslot
  obtain ⟨d, hdesc⟩ := Option.isSome_iff_exists.mp hdesc
  exact ⟨slot, d, hp.execReady hs hc hslot hdesc hfound⟩

/-- The first process of a small machine runs, and can open the file. -/
theorem started_execReady (m : Mem) (name : Nat → UInt8) (P : Kernel → Prop) [DecidablePred P] (hfits : InitFits m)
    (h : (smallOn m [.timer false]).map (fun r => decide (CanOpen r.2 name ∧ P r.2)) = some true) :
    ∃ ls t slot d pgd, Reaches smallLayout m ls t ∧ P t ∧
      ExecReady smallLayout t t.current name slot d pgd (t.pageOf t.current .frame) := by
  obtain ⟨⟨ls, t⟩, hr, hd⟩ := Option.map_eq_some_iff.mp h
  obtain ⟨hopen, hP⟩ := of_decide_eq_true hd
  obtain ⟨s, hboot, hall⟩ := smallOn_boot hr
  have hrun : Run (Guarded (fun _ l => l.event.UserPointers) (Step smallLayout)) s ls t := by
    obtain ⟨⟨l, u⟩, hu, hrest⟩ := Option.bind_eq_some_iff.mp hall
    cases hrest
    have hptr : l.event.UserPointers := by
      rw [perform_event hu]
      trivial
    exact .single ⟨hptr, perform_step hu⟩
  obtain ⟨hg, xs, hp⟩ := reaches_pageInv hboot hfits hrun
  obtain ⟨slot, d, hready⟩ := hopen.execReady hg hp
  exact ⟨ls, t, slot, d, _, ⟨s, hboot, performAll_run hall⟩, hP, hready⟩

/-! ## The size of a program -/

/-- `exec` writes in the user page only, and fails if the file is larger. -/
structure ExecContained (s : Kernel) (p : Proc) (name : Nat → UInt8) : Prop where
  within : ∀ copies, execCopies p name s = .ok copies → CopiesWithin userBase pageSize copies
  fails : pageSize < loadSize s name → ∃ t, exec p name s = .ok (none, t)

/-- `setup_uvm` loads to its fresh page only, and fails if the file is larger. -/
structure SetupContained (L : Layout) (s : Kernel) (p : Proc) (name : Nat → UInt8) (frame : Nat) : Prop where
  within : ∀ copies, setupUvmCopies L p name s = .ok copies → CopiesWithin frame pageSize copies
  fails : pageSize < loadSize s name → ∃ t, setupUvm L p name s = .ok (false, t)

theorem ExecReady.contained_iff (h : ExecReady L s p name slot d pgd frame) :
    ExecContained s p name ↔ loadSize s name ≤ pageSize := by
  constructor
  · intro hc
    by_contra hlarge
    obtain ⟨t, hrun⟩ := hc.fails (Nat.lt_of_not_le hlarge)
    exact h.not_killed hrun
  · refine fun hle => ⟨fun copies hcopies => ?_, fun hlt => absurd hle (Nat.not_le.mpr hlt)⟩
    rw [← Except.ok.inj (h.execCopies_eq.symm.trans hcopies)]
    exact loadCopies_within hle

theorem SetupReady.contained_iff (h : SetupReady L s p name slot d pgd pud pmd frame xs) :
    SetupContained L s p name frame ↔
      loadSize s name ≤ pageSize ∨ EndsBefore s.memory.mem (loadCluster s name) (pageSize + 1) := by
  obtain ⟨M, hM⟩ := h.loads
  constructor
  · intro hc
    cases Nat.lt_or_ge pageSize (loadSize s name) with
    | inl hlarge =>
        obtain ⟨t, hrun⟩ := hc.fails hlarge
        exact .inr (h.setupUvm_ends hM hlarge hc.within hrun)
    | inr hle => exact .inl hle
  · intro hfits
    cases Nat.lt_or_ge pageSize (loadSize s name) with
    | inl hlarge =>
        have hends := hfits.resolve_left (Nat.not_le.mpr hlarge)
        obtain ⟨⟨copies, hcopies, hwithin⟩, hfails⟩ := h.setupUvm_short hM hends hlarge (Nat.le_refl _)
        refine ⟨fun copies' hcopies' => ?_, fun _ => hfails⟩
        rwa [← Except.ok.inj (hcopies.symm.trans hcopies')]
    | inr hle =>
        refine ⟨fun copies hcopies => ?_, fun hlt => absurd hle (Nat.not_le.mpr hlt)⟩
        rw [← Except.ok.inj ((h.setupUvmCopies_eq hM).symm.trans hcopies)]
        exact loadCopies_within hle

/-- `exec` stays in its page and fails on a larger file only if the file is not larger; `setup_uvm` also does if the
clusters of the larger file end in the page. -/
theorem load_contained_iff (L : Layout) :
    (∀ s p name slot d pgd frame, ExecReady L s p name slot d pgd frame →
      (ExecContained s p name ↔ loadSize s name ≤ pageSize)) ∧
    ∀ s p name slot d pgd pud pmd frame xs, SetupReady L s p name slot d pgd pud pmd frame xs →
      (SetupContained L s p name frame ↔
        loadSize s name ≤ pageSize ∨ EndsBefore s.memory.mem (loadCluster s name) (pageSize + 1)) :=
  ⟨fun _ _ _ _ _ _ _ h => h.contained_iff, fun _ _ _ _ _ _ _ _ _ _ h => h.contained_iff⟩

theorem load_contained_small :
    (∃ ls t, Reaches smallLayout smallMem ls t ∧ CanOpen t initBin ∧
      (ExecContained t t.current initBin ↔ loadSize t initBin ≤ pageSize)) ∧
    ∃ t u v s i stack pgd N zs frame, FirstProcess smallLayout smallMem t u v s i stack pgd N zs ∧
      (SetupContained smallLayout u i initBin frame ↔
        loadSize u initBin ≤ pageSize ∨ EndsBefore u.memory.mem (loadCluster u initBin) (pageSize + 1)) := by
  obtain ⟨ls, t, slot, d, pgd, hr, hopen, hready⟩ := started_execReady smallMem initBin
    (fun t => CanOpen t initBin) smallMem_fits (by decide +kernel)
  have ⟨s, hboot, _⟩ := hr
  obtain ⟨u, v, s', i, stack, pgd', N, zs, hf⟩ := boot_firstProcess hboot
  obtain ⟨slot', d', frame, pud, pmd, ys, hsetup⟩ := hf.setupReady
  exact ⟨⟨ls, t, hr, hopen, (load_contained_iff _).1 _ _ _ _ _ _ _ hready⟩,
    s, u, v, s', i, stack, pgd', N, zs, frame, hf, (load_contained_iff _).2 _ _ _ _ _ _ _ _ _ _ hsetup⟩

/-- The bytes of a disk with `INIT.BIN` of four bytes, and with `BIG.BIN` of 2MB and one byte in 33 clusters. -/
def bigDisk : List (Nat × UInt8) :=
  [(12, 2), (13, 128), (14, 1), (16, 1), (17, 16), (22, 1), (0x1fe, 0x55), (0x1ff, 0xaa),
   (1024, 73), (1025, 78), (1026, 73), (1027, 84), (1028, 32), (1029, 32), (1030, 32), (1031, 32),
   (1032, 66), (1033, 73), (1034, 78), (1050, 40), (1052, 4), (592, 0xff), (593, 0xff),
   (1056, 66), (1057, 73), (1058, 71), (1059, 32), (1060, 32), (1061, 32), (1062, 32), (1063, 32),
   (1064, 66), (1065, 73), (1066, 78), (1082, 2), (1084, 1), (1086, 0x20), (580, 0xff), (581, 0xff)] ++
    (List.range 32).map fun i => (516 + 2 * i, (i + 3).toUInt8)

def bigMem : Mem := fun a => ((bigDisk.find? fun e => fsBase + e.1 = a).map (·.2)).getD 0

def bigBin : Nat → UInt8 := cstring ['B', 'I', 'G', '.', 'B', 'I', 'N']

/-- The bytes of a disk with a larger `INIT.BIN`: 33 clusters of 64KB, and 2MB and four bytes of data, of which the
last four are not zero. -/
def longDisk : List (Nat × UInt8) :=
  [(12, 2), (13, 128), (14, 1), (16, 1), (17, 16), (22, 1), (0x1fe, 0x55), (0x1ff, 0xaa),
   (1024, 73), (1025, 78), (1026, 73), (1027, 84), (1028, 32), (1029, 32), (1030, 32), (1031, 32),
   (1032, 66), (1033, 73), (1034, 78), (1050, 2), (1052, 4), (1054, 0x20),
   (2098688, 3), (2098690, 0x80), (2098691, 0x2f), (580, 0xff), (581, 0xff)] ++
    (List.range 32).map fun i => (516 + 2 * i, (i + 3).toUInt8)

def longMem : Mem := fun a => ((longDisk.find? fun e => fsBase + e.1 = a).map (·.2)).getD 0

/-- With a file of 2MB and one byte the kernel faults in the middle of `exec`, and does not return to it. When such a
file is `INIT.BIN`, `setup_uvm` reports success. -/
theorem load_overflows :
    (∃ ls t, Reaches smallLayout bigMem ls t ∧ loadSize t bigBin = pageSize + 1 ∧
      exec t.current bigBin t = .error .abort ∧ ¬ExecContained t t.current bigBin) ∧
    ∃ t u v s i stack pgd N zs frame, FirstProcess smallLayout longMem t u v s i stack pgd N zs ∧
      setupUvm smallLayout i initBin u = .ok (true, v) ∧ ¬SetupContained smallLayout u i initBin frame := by
  obtain ⟨ls, t, slot, d, pgd, hr, ⟨hsize, hstop⟩, hready⟩ := started_execReady bigMem bigBin
    (fun t => loadSize t bigBin = pageSize + 1 ∧ stopped (exec t.current bigBin t) = some .abort)
    (by decide) (by decide +kernel)
  have habort := stopped_eq_some.mp hstop
  have hlong : (smallOn longMem []).isSome := by decide +kernel
  obtain ⟨⟨ls', t'⟩, hr'⟩ := Option.isSome_iff_exists.mp hlong
  obtain ⟨s, hboot, -⟩ := smallOn_boot hr'
  obtain ⟨u, v, s', i, stack, pgd', N, zs, hf⟩ := boot_firstProcess hboot
  obtain ⟨slot', d', frame, pud, pmd, ys, hsetup⟩ := hf.setupReady
  refine ⟨⟨ls, t, hr, hsize, habort, fun hc => ?_⟩, s, u, v, s', i, stack, pgd', N, zs, frame, hf, hf.setup, fun hc => ?_⟩
  · obtain ⟨t', hrun⟩ := hc.fails (by omega)
    rw [habort] at hrun
    cases hrun
  · obtain ⟨-, hsize, -⟩ := hf.load_eq initBin
    have hlarge : pageSize < DirEntry.fileSize longMem (searchFile longMem initBin) := by decide
    obtain ⟨t', hrun⟩ := hc.fails (hsize ▸ hlarge)
    rw [hf.setup] at hrun
    cases hrun

/-! ## Files that end too early -/

/-- `exec` starts a program only when the whole file is in the page, and kills the process whenever fewer bytes can be
read: when the table leads to a mark or to a free cluster before the file ends, and when the file does not fit. -/
structure ExecWhole (s : Kernel) (p : Proc) (name : Nat → UInt8) (frame : Nat) : Prop where
  whole : ∀ r t, exec p name s = .ok (some r, t) → ∃ xs e, Path s.memory.mem (loadCluster s name) xs e ∧
    loadSize s name ≤ xs.length * getClusterSize s.memory.mem ∧
    t.memory.mem.bytes frame pageSize = (pathData s.memory.mem xs).take (loadSize s name) ++
      List.replicate (pageSize - loadSize s name) 0
  fails : ¬Readable s name → ∃ t, exec p name s = .ok (none, t)

theorem ExecReady.whole_iff (h : ExecReady L s p name slot d pgd frame) :
    ExecWhole s p name frame ↔ Readable s name := by
  constructor
  · intro hw
    by_contra hnot
    obtain ⟨t, hrun⟩ := hw.fails hnot
    exact h.not_killed hrun
  · refine fun hread => ⟨fun r t hrun => ?_, fun hnot => absurd hread hnot⟩
    obtain ⟨xs, e, hp, hends, hbytes⟩ := h.returns hrun
    have hcovers := hends.resolve_right fun hshort =>
      EndsBefore.not_readable ⟨xs, e, hp, hshort.2, hshort.1⟩ hread
    have hlen : ((pathData s.memory.mem xs).take (loadSize s name)).length = loadSize s name := by
      rw [List.length_take, length_pathData]
      omega
    rw [hlen] at hbytes
    exact ⟨xs, e, hp, hcovers, hbytes⟩

/-- `exec` does so on the files whose bytes can all be read, and on no others: it never kills the process for a read
that comes out short. `setup_uvm` fails on a file whose clusters end in a mark too early, if the part fits the page. -/
theorem exec_whole_iff (L : Layout) :
    (∀ s p name slot d pgd frame, ExecReady L s p name slot d pgd frame →
      (ExecWhole s p name frame ↔ Readable s name)) ∧
    ∀ s p name slot d pgd pud pmd frame xs, SetupReady L s p name slot d pgd pud pmd frame xs →
      EndsBefore s.memory.mem (loadCluster s name) (min (loadSize s name) (pageSize + 1)) →
      ∃ t, setupUvm L p name s = .ok (false, t) := by
  refine ⟨fun _ _ _ _ _ _ _ h => h.whole_iff, fun _ _ _ _ _ _ _ _ _ _ h hends => ?_⟩
  obtain ⟨M, hM⟩ := h.loads
  exact (h.setupUvm_short hM hends (Nat.min_le_left _ _) (Nat.min_le_right _ _)).2

/-- The bytes of a disk with `INIT.BIN` of four bytes, and with `CUT.BIN` of 600 bytes in one cluster of 512. -/
def cutDisk : List (Nat × UInt8) :=
  smallDisk ++ [(518, 0xff), (519, 0xff), (1056, 67), (1057, 85), (1058, 84), (1059, 32), (1060, 32), (1061, 32),
    (1062, 32), (1063, 32), (1064, 66), (1065, 73), (1066, 78), (1082, 3), (1084, 0x58), (1085, 2)]

def cutMem : Mem := fun a => ((cutDisk.find? fun e => fsBase + e.1 = a).map (·.2)).getD 0

def cutBin : Nat → UInt8 := cstring ['C', 'U', 'T', '.', 'B', 'I', 'N']

theorem cutMem_file : searchFile cutMem cutBin ≠ 0xffffffff ∧ DirEntry.fileSize cutMem (searchFile cutMem cutBin) = 600 ∧
    Path cutMem (DirEntry.clusterIndex cutMem (searchFile cutMem cutBin)) [⟨3, by decide⟩] 0xffff ∧
    getClusterSize cutMem = 512 := by
  decide

theorem exec_whole_small :
    (∃ ls t frame, Reaches smallLayout smallMem ls t ∧ loadSize t initBin = 4 ∧ Readable t initBin ∧
      ExecWhole t t.current initBin frame) ∧
    ∃ t u v s i stack pgd N zs w, FirstProcess smallLayout cutMem t u v s i stack pgd N zs ∧
      setupUvm smallLayout i cutBin u = .ok (false, w) := by
  obtain ⟨ls, t, slot, d, pgd, hr, ⟨hsize, hpath, hbytes⟩, hready⟩ := started_execReady smallMem initBin
    (fun t => loadSize t initBin = 4 ∧ Path t.memory.mem (loadCluster t initBin) [⟨2, by decide⟩] 0xffff ∧
      getClusterSize t.memory.mem = 512) smallMem_fits (by decide +kernel)
  have hreadable : Readable t initBin := by
    refine ⟨hsize ▸ by decide, [⟨2, by decide⟩], 0xffff, hpath, ?_⟩
    rw [hsize, hbytes]
    decide
  have hcut : (smallOn cutMem []).isSome := by decide +kernel
  obtain ⟨⟨ls', t'⟩, hr'⟩ := Option.isSome_iff_exists.mp hcut
  obtain ⟨s, hboot, -⟩ := smallOn_boot hr'
  obtain ⟨u, v, s', i, stack, pgd', N, zs, hf⟩ := boot_firstProcess hboot
  obtain ⟨slot', d', frame, pud, pmd, ys, hsetup⟩ := hf.setupReady
  obtain ⟨hfound, hsizeCut, hpathCut, hclusters⟩ := cutMem_file
  obtain ⟨habove, hsize', hcluster'⟩ := hf.load_eq cutBin
  have hends : EndsBefore u.memory.mem (loadCluster u cutBin) (min (loadSize u cutBin) (pageSize + 1)) := by
    refine ⟨[⟨3, by decide⟩], 0xffff, hcluster' ▸ habove.path hpathCut, by decide, ?_⟩
    rw [habove.clusterSize, hclusters, hsize', hsizeCut]
    decide
  obtain ⟨w, hw⟩ := (exec_whole_iff _).2 _ _ _ _ _ _ _ _ _ _ (hsetup.other (habove.searchFile cutBin ▸ hfound)) hends
  exact ⟨⟨ls, t, _, hr, hsize, hreadable, ((exec_whole_iff _).1 _ _ _ _ _ _ _ hready).mpr hreadable⟩,
    s, u, v, s', i, stack, pgd', N, zs, w, hf, hw⟩

/-- `exec` returns 0 with 512 of the 600 bytes. -/
theorem exec_starts_part :
    ∃ ls t u slot d pgd, Reaches smallLayout cutMem ls t ∧
      ExecReady smallLayout t t.current cutBin slot d pgd (t.pageOf t.current .frame) ∧ loadSize t cutBin = 600 ∧
      exec t.current cutBin t = .ok (some 0, u) ∧ ¬ExecWhole t t.current cutBin (t.pageOf t.current .frame) := by
  obtain ⟨ls, t, slot, d, pgd, hr, ⟨hsize, hcluster, hread, hrun⟩, hready⟩ := started_execReady cutMem
    cutBin (fun t => loadSize t cutBin = 600 ∧
      Path t.memory.mem (loadCluster t cutBin) [⟨3, by decide⟩] 0xffff ∧
      getClusterSize t.memory.mem = 512 ∧ (exec t.current cutBin t).toOption.map Prod.fst = some (some 0))
    (by decide) (by decide +kernel)
  obtain ⟨⟨r, u⟩, hu, hr0⟩ := Option.map_eq_some_iff.mp hrun
  have hexec : exec t.current cutBin t = .ok (some 0, u) := by
    cases hx : exec t.current cutBin t with
    | error e =>
        rw [hx] at hu
        cases hu
    | ok x =>
        rw [hx] at hu
        cases hu
        cases hr0
        rfl
  refine ⟨ls, t, u, slot, d, pgd, hr, hready, hsize, hexec, fun hw => ?_⟩
  have hends : EndsBefore t.memory.mem (loadCluster t cutBin) (loadSize t cutBin) := by
    refine ⟨[⟨3, by decide⟩], 0xffff, hcluster, by decide, ?_⟩
    rw [hsize, hread, List.length_singleton]
    omega
  obtain ⟨v, hkilled⟩ := hw.fails hends.not_readable
  rw [hexec] at hkilled
  cases hkilled

/-! ## The new program -/

/-- The program of `size` bytes in the clusters `xs` has replaced that of the current process, and the process goes on
with it. -/
structure Replaced (s t : Kernel) (xs : List Cluster) (size : Nat) : Prop where
  page : t.memory.mem.bytes (s.pageOf s.current .frame) pageSize =
    (fileBytes s.memory.mem xs).take size ++ List.replicate (pageSize - size) 0
  maps : ∀ va, (walk t.memory.mem t.ttbr0 va).map p2v =
    if userBase ≤ va ∧ va < userBase + pageSize then some (s.pageOf s.current .frame) else none
  /-- The bytes of the file are those of the image, whatever the page and the trap frame were. -/
  source : ∀ m', SameAbove s.memory.mem m' → fileBytes m' xs = fileBytes s.memory.mem xs
  elr : t.memory.mem.read 8 ((s.proc s.current).tf + TrapFrame.elr) = userBase
  sp0 : t.memory.mem.read 8 ((s.proc s.current).tf + TrapFrame.sp0) = userBase + pageSize
  zero : ∀ o < TrapFrame.size, ¬(TrapFrame.elr ≤ o ∧ o < TrapFrame.elr + 8) →
    ¬(TrapFrame.sp0 ≤ o ∧ o < TrapFrame.sp0 + 8) → t.memory.mem ((s.proc s.current).tf + o) = 0
  processes : t.processTable = s.processTable
  current : t.current = s.current
  fcbCount : ∀ j, (t.fs.fcbTable j).count = (s.fs.fcbTable j).count

/-- The process `c` is on `kill_list`, and stays there and is not dispatched until it is reaped. -/
structure Ended (L : Layout) (t : Kernel) (c : Proc) : Prop where
  killed : (t.proc c).state = .killed
  listed : ∃ ys, Represents t.processTable t.pc.killList ys ∧ c ∈ ys
  stays : ∀ ls u, Run (Step L) t ls u → (u.proc c).state = .killed ∧ u.current ≠ c ∨
    ∃ os, u.trace = t.trace ++ os ∧ .reap (t.proc c).pid ∈ os

theorem Good.ended {c : Proc} (h : Good t) (hc : (t.proc c).state = .killed) : Ended L t c where
  killed := hc
  listed := by
    obtain ⟨q, lost, hq⟩ := h.sched
    exact ⟨q .kill, hq.queues.represents .kill, (hq.mem_kill c).mpr hc⟩
  stays ls u hrun := by
    obtain ⟨hu, hkeep⟩ := ArmOs.Run.keepsKilled h hrun
    obtain ⟨os, htr, hkept⟩ := hkeep.kept
    cases hkept c hc with
    | inl hkilled =>
        refine .inl ⟨hkilled.1, fun he => ?_⟩
        obtain ⟨q, lost, hq⟩ := hu.sched
        have hrunning := hq.current_state
        rw [he, hkilled.1] at hrunning
        cases hrunning
    | inr hreaped => exact .inr ⟨os, htr, hreaped⟩

/-- The frame of the process, and its trap frame, after the call. -/
theorem started_bytes {frame tf size : Nat} {xs : List Cluster} (m : Mem)
    (htf : tf + TrapFrame.size ≤ frame ∨ frame + pageSize ≤ tf) (hsize : size ≤ pageSize)
    (hcovers : size ≤ xs.length * getClusterSize m) {m' : Mem}
    (hm : (startFrame (programMem m frame xs size) tf).write 8 (tf + TrapFrame.x 0) 0 = m') :
    m'.bytes frame pageSize = (fileBytes m xs).take size ++ List.replicate (pageSize - size) 0 ∧
      ∀ o < TrapFrame.size, m' (tf + o) = startByte o := by
  have hx0 : TrapFrame.x 0 + 8 ≤ TrapFrame.size := by decide
  have hlen : ((fileBytes m xs).take size).length = size := by
    rw [List.length_take, length_fileBytes]
    omega
  have hpage : Mem.Same (programMem m frame xs size) m' frame pageSize := by
    rw [← hm]
    exact (startFrame_same _ htf).trans (Mem.write_same (by omega))
  refine ⟨?_, fun o ho => ?_⟩
  · rw [Mem.bytes_congr hpage, programMem, Mem.bytes_fill_put m frame 0 (hlen.le.trans hsize), hlen]
  · rw [← hm, write_zero_apply]
    split
    · exact (startByte_x0 (by omega)).symm
    · exact startFrame_apply _ _ ho

theorem InOrder.replaced {volume : Nat} {xs : List Cluster} (h : InOrder L s) (hen : Enabled s (.svc (.exec name)))
    (hslot : freeSlot (s.proc s.current) = some slot) (hdesc : freeFileDesc s.fs = some d)
    (hfound : searchFile s.memory.mem name ≠ 0xffffffff)
    (hfile : IsFile s.memory.mem volume (searchFile s.memory.mem name) xs)
    (hsize : DirEntry.fileSize s.memory.mem (searchFile s.memory.mem name) ≤ pageSize)
    (hfit : CountsFit s (.svc (.exec name))) :
    ∃ t, Step L s ⟨s.current, .svc (.exec name), some 0⟩ t ∧
      Replaced s t xs (DirEntry.fileSize s.memory.mem (searchFile s.memory.mem name)) := by
  have hc := hen.2
  obtain ⟨ys, hp⟩ := h.pages
  obtain ⟨hu, httbr0, -⟩ := hp.current h.good hc
  have hready := hp.execReady h.good hc hslot hdesc hfound
  have hnonneg := h.files.counts.nonneg (searchFile s.memory.mem name)
  have hlt : (s.fs.fcbTable (searchFile s.memory.mem name)).count + 1 < 2 ^ 31 := hfit.fcb _
  obtain ⟨fs, hrun, hcounts⟩ := hready.run h.cached hfile hsize hnonneg hlt
  have hcovers := hfile.covers
  generalize DirEntry.fileSize s.memory.mem (searchFile s.memory.mem name) = size at hsize hcovers hrun ⊢
  generalize hm : (startFrame (programMem s.memory.mem (s.pageOf s.current .frame) xs size) (s.proc s.current).tf).write 8
    ((s.proc s.current).tf + TrapFrame.x 0) 0 = m
  obtain ⟨hpage, hbyte⟩ := started_bytes s.memory.mem hready.tf hsize hcovers hm
  have hcall : exceptionHandler L (s.proc s.current).tf (.svc (.exec name)) s =
      exec s.current name s >>= fun r => pure (returnX0 (s.proc s.current).tf r) := rfl
  have hstep : Step L s ⟨s.current, .svc (.exec name), some 0⟩ { s.setMem m with fs := fs } := by
    refine ⟨rfl, hen, ?_⟩
    rw [hcall, hrun, ← hm]
    rfl
  -- the step keeps the pages of the process
  have hptr : Event.UserPointers (.svc (.exec name)) := trivial
  obtain ⟨zs, hp', hkept⟩ := Step.pagesKept h.good hp hptr hstep
  have hu' : ({ s.setMem m with fs := fs } : Kernel).IsUser s.current := hu
  have hframe := ((hkept s.current hu).resolve_right fun hk => hk.1 hu').2 .frame
  have hmaps := hp'.mapsUser hu'
  rw [hframe] at hmaps
  obtain ⟨helr, hsp0, hzero⟩ := startByte_fields
  have hfields : TrapFrame.elr + 8 ≤ TrapFrame.size ∧ TrapFrame.sp0 + 8 ≤ TrapFrame.size := by decide
  have hread : ∀ o, o + 8 ≤ TrapFrame.size → m.read 8 ((s.proc s.current).tf + o) = startByte.read 8 o := fun o ho =>
    Mem.read_shift fun i hi => by
      rw [Nat.add_assoc]
      exact hbyte (o + i) (by omega)
  refine ⟨_, hstep, hpage, fun va => ?_, fun m' habove => ?_, (hread _ hfields.1).trans helr,
    (hread _ hfields.2).trans hsp0, fun o ho h₁ h₂ => (hbyte o ho).trans (hzero o h₁ h₂), rfl, rfl, hcounts⟩
  · have hwalk := hmaps.walk_eq va
    rwa [show ({ s.setMem m with fs := fs } : Kernel).ttbr0 = v2p (s.proc s.current).pageMap from httbr0]
  · exact hfile.volume.fileBytes_eq (habove.sameImage volume)

/-- `exec` of a name that no file has. -/
theorem InOrder.ended (h : InOrder L s) (hen : Enabled s (.svc (.exec name)))
    (hmissing : searchFile s.memory.mem name = 0xffffffff) :
    ∃ t, Step L s ⟨s.current, .svc (.exec name), none⟩ t ∧ Ended L t s.current := by
  obtain ⟨q, lost, hq⟩ := h.good.sched
  obtain ⟨t, hexit, hsw⟩ := exit_spec hq hen.2
  have hrun : exec s.current name s = .ok (none, t) := by
    unfold exec
    rw [openFile_missing hmissing]
    dsimp only
    rw [if_pos rfl, hexit]
    rfl
  have hcall : exceptionHandler L (s.proc s.current).tf (.svc (.exec name)) s =
      exec s.current name s >>= fun r => pure (returnX0 (s.proc s.current).tf r) := rfl
  have hstep : Step L s ⟨s.current, .svc (.exec name), none⟩ t := by
    refine ⟨rfl, hen, ?_⟩
    rw [hcall, hrun]
    rfl
  refine ⟨t, hstep, (hstep.good h.good).ended ((hsw.inv.mem_kill _).mp ?_)⟩
  simp [exited]

def noBin : Nat → UInt8 := cstring ['N', 'O', '.', 'B', 'I', 'N']

end ArmOs
