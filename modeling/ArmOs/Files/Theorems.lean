import ArmOs.Files.Lemmas.Asserts
import ArmOs.Sched.Theorems

/-!
# The tables of open files

The counts of `file_desc_table` and `fcb_table` against the slots of the processes, over every run of the
kernel. No slot ever dangles. The counts are too high, however: `close_file` never lowers the count of an entry
of `file_desc_table`, and `wait` forgets the slots of the process it reaps. They are exact in the runs that do
neither.
-/

namespace ArmOs

open Lib

variable {L : Layout} {m : Mem} {s t u : Kernel} {ls : List Label}

/-! ## The tables after the start -/

/-- After the start all slots are `NULL` and all counts of files are 0. The entry 0 of `file_desc_table`, with
which `setup_uvm` read the first program, is still in use. -/
structure BootFiles (t : Kernel) : Prop where
  slot : ∀ x, t.slot x = none
  fcb : ∀ i, (t.fs.fcbTable i).count = 0
  desc : ∀ d, d ≠ 0 → (t.fs.fileDescTable d).fcb = none
  leaked : ∃ i, (t.fs.fileDescTable 0).fcb = some i
  count : ∀ d, (t.fs.fileDescTable d).count = if d = 0 then 1 else 0

/-- The tables after `init_fs`. -/
structure EmptyFiles (s : Kernel) : Prop where
  slot : ∀ x, s.slot x = none
  fcb : ∀ i, (s.fs.fcbTable i).count = 0
  desc : ∀ d, (s.fs.fileDescTable d).fcb = none
  count : ∀ d, (s.fs.fileDescTable d).count = 0

/-- Opening a file, reading it and closing it again. -/
theorem EmptyFiles.openClose {s₁ s₂ : Kernel} {p : Proc} {fd fd' : Fin numFile} {d d' i i' : Nat}
    (h : EmptyFiles s) (ho : Opened s s₁ p fd d i) (hs : SameFiles s₁ s₂) (hc : Closed s₂ t p fd' d' i')
    (hfd : fd' = fd) : BootFiles t := by
  subst hfd
  obtain rfl : d = 0 := by
    by_contra hd
    have := (findFrom_eq_some.mp ho.first).2.2.2 0 le_rfl (by omega)
    simp [h.desc] at this
  have hslot : s₂.slot = Function.update s.slot (p, fd') (some 0) := by rw [hs.slot_eq, ho.slot_eq]
  obtain rfl : d' = 0 := by
    have : s₂.slot (p, fd') = some d' := hc.slot
    rw [hslot, Function.update_self] at this
    exact (Option.some.inj this).symm
  have hfcb : ∀ d, (s₂.fs.fileDescTable d).fcb = if d = 0 then some i else none := by
    intro d
    rw [hs.fcb, ho.fcb, h.desc]
  have hcount : ∀ d, (s₂.fs.fileDescTable d).count = if d = 0 then 1 else 0 := by
    intro d
    rw [hs.count, ho.desc]
    by_cases hd : d = 0
    · subst hd
      simp
    · rw [Function.update_of_ne hd, h.count, if_neg hd]
  obtain rfl : i' = i := by
    have := hc.fcb
    rw [hfcb, if_pos rfl] at this
    exact (Option.some.inj this).symm
  have hdesc := hc.desc_eq (by rw [hcount]; decide)
  refine ⟨fun x => ?_, fun j => ?_, fun d hd => ?_, ⟨i', ?_⟩, fun d => ?_⟩
  · rw [hc.slot_eq, hslot, Function.update_idem]
    by_cases hx : x = (p, fd')
    · subst hx
      rw [Function.update_self]
    · rw [Function.update_of_ne hx]
      exact h.slot x
  · rw [hc.fcbCount, hs.fcbTable, ho.fcbCount, ho.fcbCount, h.fcb, h.fcb]
    by_cases hj : j = i'
    · simp [hj, int32]
    · simp [hj]
  · rw [hdesc, hfcb, if_neg hd]
  · rw [hdesc, hfcb, if_pos rfl]
  · rw [hdesc, hcount]

theorem boot_files (h : boot L m = .ok t) : BootFiles t := by
  obtain ⟨M, s₁, i, s₂, s₃, -, hfs, halloc, hsetup, happend⟩ := boot_ok h
  have ha := allocNewProcess_spec halloc
  obtain ⟨page, M₁, M₂, fd, s₄, size, s₅, -, -, -, hopen, hne, -, hread, hclose⟩ := setupUvm_true hsetup
  have hempty : EmptyFiles { s₂ with memory := M₂ } := by
    obtain ⟨_, _, _, _, -, -, rfl⟩ := initFs_ok hfs
    have hfs₂ := ha.fs
    refine ⟨fun x => ?_, fun j => ?_, fun d => ?_, fun d => ?_⟩
    · have hfile : (s₂.proc x.1).file = fun _ => none := by
        by_cases hx : x.1 = i
        · rw [hx, ha.file]
          by_cases hi : i = idle
          · rw [hi]; rfl
          · exact congrArg Process.file (Kernel.setProc_ne _ _ _ _ hi)
        · rw [ha.others x.1 hx]
          by_cases hi : x.1 = idle
          · rw [hi]; rfl
          · exact congrArg Process.file (Kernel.setProc_ne _ _ _ _ hi)
      exact congrFun hfile x.2
    · show (s₂.fs.fcbTable j).count = 0
      rw [hfs₂]
      rfl
    · show (s₂.fs.fileDescTable d).fcb = none
      rw [hfs₂]
      rfl
    · show (s₂.fs.fileDescTable d).count = 0
      rw [hfs₂]
      rfl
  rcases openFile_opened hopen with ⟨hfd, -⟩ | ⟨slot, d, j, hfd, ho⟩
  · exact absurd hfd hne
  obtain ⟨slot', d', j', hfd', hc⟩ := closeFile_closed hclose
  have hslots : slot' = slot := Fin.ext (by rw [hfd] at hfd'; exact_mod_cast hfd'.symm)
  have hboot := hempty.openClose ho (readFile_sameFiles hread) hc hslots
  have hlinks := SameButLinks.ofAppendTail happend
  have hfs : t.fs = s₃.fs := hlinks.fs
  refine ⟨fun x => ?_, by rw [hfs]; exact hboot.fcb, by rw [hfs]; exact hboot.desc, by rw [hfs]; exact hboot.leaked,
    by rw [hfs]; exact hboot.count⟩
  rw [Kernel.slot, hlinks.proc]
  refine Eq.trans ?_ (hboot.slot x)
  by_cases hx : x.1 = i
  · subst hx
    exact congrFun (congrArg Process.file (Kernel.setProc_self _ _ _)) x.2
  · exact congrFun (congrArg Process.file (Kernel.setProc_ne _ _ _ _ hx)) x.2

namespace BootFiles

theorem refs_eq (h : BootFiles s) (P : Nat → Bool) : refs s.slot P = 0 := by
  rw [show s.slot = fun _ => none from funext h.slot]
  exact refs_none P

theorem slotsOpen (h : BootFiles s) : SlotsOpen s :=
  ⟨fun p _ fd => h.slot (p, fd), fun x d hx => by rw [h.slot] at hx; cases hx⟩

theorem fileExact (h : BootFiles s) : FileExact s :=
  ⟨h.slotsOpen, fun i => by rw [h.fcb, fcbRefs, h.refs_eq]; rfl⟩

theorem fileInv (h : BootFiles s) : FileInv s := by
  refine ⟨h.slotsOpen, fun d i hd => ?_, h.fileExact.counts⟩
  by_cases hz : d = 0
  · subst hz
    rw [h.count]
    decide
  · rw [h.desc d hz] at hd
    cases hd

theorem counted (h : BootFiles s) {d : Nat} (hd : d ≠ 0) : Counted s d := by
  have hfree := h.desc d hd
  exact ⟨by rw [hfree, descRefs, h.refs_eq]; simp, fun hne => absurd hfree hne⟩

theorem countsLe (h : BootFiles s) : CountsLe 1 s := by
  refine ⟨fun d => ?_, fun i => ?_⟩
  · rw [h.count]
    split <;> omega
  · rw [h.fcb]
    omega

end BootFiles

/-! ## Short runs -/

/-- A step adds at most a hundred references. -/
theorem short_run_counts {G : Kernel → Label → Prop} (hboot : boot L m = .ok s)
    (hrun : Run (Guarded G (Step L)) s ls t) (hlen : ls.length < 10 ^ 7) :
    Run (Guarded (fun a l => G a l ∧ CountsFit a l.event) (Step L)) s ls t ∧ Good t ∧ FileInv t ∧
      CountsLe (1 + 100 * ls.length) t := by
  induction hrun with
  | nil => exact ⟨.nil s, good_of_boot hboot, (boot_files hboot).fileInv, (boot_files hboot).countsLe⟩
  | @snoc a b ls l hrun hl ih =>
      rw [List.length_append, List.length_singleton] at hlen ⊢
      obtain ⟨hfits, hg, hf, hle⟩ := ih (by omega)
      have hbound : 1 + 100 * ls.length + 100 < 2 ^ 31 := by omega
      exact ⟨hfits.snoc ⟨⟨hl.1, hle.countsFit hbound _⟩, hl.2⟩, hle.step hbound hg hf hl.2⟩

/-- It takes more than ten million steps to overflow a reference count. -/
theorem short_run_fits {G : Kernel → Label → Prop} (hboot : boot L m = .ok s) (hrun : Run (Guarded G (Step L)) s ls t)
    (hlen : ls.length < 10 ^ 7) : Run (Guarded (fun a l => G a l ∧ CountsFit a l.event) (Step L)) s ls t :=
  (short_run_counts hboot hrun hlen).1

theorem short_run_next {G : Kernel → Label → Prop} (hboot : boot L m = .ok s) (hrun : Run (Guarded G (Step L)) s ls t)
    (hlen : ls.length < 10 ^ 7) (ev : Event) : CountsFit t ev :=
  (short_run_counts hboot hrun hlen).2.2.2.countsFit (by omega) ev

/-! ## No dangling slots -/

/-- Every slot leads to a file whose count covers all slots that reach it, so that closing it succeeds and no
step fails the `ASSERT` of `put_fcb`. A file is opened through an entry that no other slot points to, and no
step changes the name, the size or the first cluster of a file that some slot reaches. -/
structure NoDangling (L : Layout) (s : Kernel) : Prop where
  fcb : ∀ x d, s.slot x = some d → ∃ i, (s.fs.fileDescTable d).fcb = some i ∧
    (fcbRefs s i : Int) ≤ (s.fs.fcbTable i).count
  close : ∀ p (fd : Fin numFile) d, (s.proc p).file fd = some d → ∃ t, closeFile p fd.val s = .ok t
  putFcb : ∀ ev, Enabled s ev → CountsFit s ev →
    exceptionHandler L (s.proc s.current).tf ev s ≠ .error (.assert .putFcb)
  fresh : ∀ p path fd t, openFile p path s = (fd, t) → fd ≠ -1 →
    ∃ (slot : Fin numFile) (d : Nat), fd = slot.val ∧ t.slot (p, slot) = some d ∧
      ∀ x, x ≠ (p, slot) → t.slot x ≠ some d
  kept : ∀ l t i, Step L s l t → 0 < fcbRefs s i →
    t.fs.fcbTable i = { s.fs.fcbTable i with count := (t.fs.fcbTable i).count }

theorem openFile_fresh (h : SlotsOpen s) {p : Proc} {path : Nat → UInt8} {fd : Int}
    (hopen : openFile p path s = (fd, t)) (hne : fd ≠ -1) :
    ∃ (slot : Fin numFile) (d : Nat), fd = slot.val ∧ t.slot (p, slot) = some d ∧
      ∀ x, x ≠ (p, slot) → t.slot x ≠ some d := by
  rcases openFile_opened hopen with ⟨hfd, -⟩ | ⟨slot, d, i, hfd, ho⟩
  · exact absurd hfd hne
  · refine ⟨slot, d, hfd, by rw [ho.slot_eq, Function.update_self], fun x hx => ?_⟩
    rw [ho.slot_eq, Function.update_of_ne hx]
    exact ho.not_slot h x

theorem FileEffect.fcbKept {o : Kernel} {ev : Event} (he : FileEffect L o ev s t) (ho : FcbCounts o) {i : Nat}
    (hi : 0 < fcbRefs o i) (h : s.fs.fcbTable i = { o.fs.fcbTable i with count := (s.fs.fcbTable i).count }) :
    t.fs.fcbTable i = { o.fs.fcbTable i with count := (t.fs.fcbTable i).count } := by
  cases he with
  | same hs => rw [hs.fcbTable, h]
  | @opened fd d i' path hos hev hop =>
      subst hos
      have hcount := ho.surplus i
      rw [surplus] at hcount
      have hne : (s.fs.fcbTable i).count ≠ 0 := by omega
      rw [hop.fcbTable]
      by_cases hii : i = i'
      · subst hii
        simp [getFcb, Fs.setFcb, hne]
      · simp [getFcb, Fs.setFcb, hii]
  | @closed fd d i' hev hc =>
      rw [hc.fcbTable]
      by_cases hii : i = i'
      · subst hii
        rw [Function.update_self, h]
      · rw [Function.update_of_ne hii, h]
  | @forked j hos hev hf => rw [hf.countedUp.fcb i, h]
  | @reaped q lost pid x ys zs hat hfind hr => rw [hr.fs, h]

theorem FileInv.noDangling (h : FileInv s) (hg : Good s) : NoDangling L s where
  fcb x d hx := by
    obtain ⟨i, hi⟩ := h.slots.desc x d hx
    have := h.counts.surplus i
    rw [surplus] at this
    exact ⟨i, hi, by omega⟩
  close _ _ _ hd := closeFile_open h hd
  putFcb _ hen hfit := exceptionHandler_putsFcb hg h hfit hen _
  fresh _ _ _ _ hopen hne := openFile_fresh h.slots hopen hne
  kept l t i hstep hi := (hstep.files (I := fun u =>
    u.fs.fcbTable i = { s.fs.fcbTable i with count := (u.fs.fcbTable i).count })
    (fun _ _ _ he => he.fcbKept h.counts hi) hg rfl).2

/-- As long as no reference count overflows, no slot dangles. -/
theorem no_dangling (hboot : boot L m = .ok s)
    (hrun : Run (Guarded (fun a l => CountsFit a l.event) (Step L)) s ls t) : NoDangling L t := by
  have key : Good t ∧ FileInv t := by
    refine hrun.invariant (I := fun u => Good u ∧ FileInv u)
      ⟨good_of_boot hboot, (boot_files hboot).fileInv⟩ ?_
    rintro a l b ⟨hg, hf⟩ ⟨hfit, hstep⟩
    exact hstep.files (fun _ _ hga he => he.fileInv hga.live hfit) hg hf
  exact key.2.noDangling key.1

/-- In this run every process that is reaped has closed its files. -/
theorem family_run : ∃ s ls t, boot smallLayout smallMem = .ok s ∧
    Run (Guarded (fun a l => ReapsClosedHere a l.event) (Step smallLayout)) s ls t ∧ ls.map Label.event = familyEvents ∧
    t.slot (t.current, firstFd) = some 2 ∧ (t.fs.fcbTable 0).count = 1 ∧ .reap 2 ∈ t.trace := by
  obtain ⟨s, ls, t, l, u, hboot, hall, -, hstep, hev, -, hend⟩ := family_reaps
  have h : (smallGuarded ReapsClosedHere familyStart).map (fun r => decide (ReapsClosedHere r.2 .resume)) =
      some true := by
    decide +kernel
  obtain ⟨⟨ls', t'⟩, hr, hclosed⟩ := Option.map_eq_some_iff.mp h
  obtain ⟨s', hs', hguarded⟩ := Option.bind_eq_some_iff.mp hr
  -- it is the same run
  obtain rfl := Except.ok.inj (hboot.symm.trans (toOption_eq_some.mp hs'))
  cases hall.symm.trans (performGuarded_all hguarded)
  obtain ⟨hrun, hevents⟩ := performGuarded_run hguarded
  have hlast : ReapsClosedHere t l.event := hev ▸ of_decide_eq_true hclosed
  refine ⟨s, ls ++ [l], u, hboot, hrun.snoc ⟨hlast, hstep⟩, ?_, hend⟩
  rw [List.map_append, hevents, List.map_singleton, hev]
  rfl

theorem no_dangling_small : ∃ ls t, Reaches smallLayout smallMem ls t ∧ ls.map Label.event = familyEvents ∧
    t.slot (t.current, firstFd) = some 2 ∧ NoDangling smallLayout t := by
  obtain ⟨s, ls, t, hboot, hrun, hevents, hslot, -⟩ := family_run
  have hlen : ls.length < 10 ^ 7 := by
    rw [← List.length_map (f := Label.event), hevents]
    decide
  have hfits : Run (Guarded (fun a l => CountsFit a l.event) (Step smallLayout)) s ls t :=
    (short_run_fits hboot hrun hlen).mono fun _ _ _ h => ⟨h.1.2, h.2⟩
  exact ⟨ls, t, .of_guarded hboot hrun, hevents, hslot, no_dangling hboot hfits⟩

/-! ## The counts of the files -/

/-- The number of slots, over all processes in use, whose entry refers to the file `i`. -/
def liveRefs (s : Kernel) (i : Nat) : Nat :=
  (Finset.univ.filter fun x : Slot => s.Live x.1 ∧ (s.slot x).any (s.fs.reaches i)).card

theorem SlotsOpen.liveRefs_eq (h : SlotsOpen s) (i : Nat) : liveRefs s i = fcbRefs s i := by
  refine congrArg Finset.card (Finset.filter_congr fun x _ => ?_)
  refine and_iff_right_of_imp fun hx => ?_
  by_contra hlive
  have : s.slot x = none := h.unused x.1 hlive x.2
  rw [this] at hx
  cases hx

/-- As long as `wait` reaps only processes that have closed their files, and no slot is closed whose entry has
the count 0, the count of a file is the number of slots that reach it. -/
theorem fcb_count_exact (hboot : boot L m = .ok s)
    (hrun : Run (Guarded (fun a l => ReapsClosed a l.event) (Step L)) s ls t) (i : Nat) :
    (t.fs.fcbTable i).count = liveRefs t i := by
  have key : Good t ∧ FileExact t := by
    refine hrun.invariant (I := fun u => Good u ∧ FileExact u)
      ⟨good_of_boot hboot, (boot_files hboot).fileExact⟩ ?_
    rintro a l b ⟨hg, hf⟩ ⟨hguard, hstep⟩
    exact hstep.files (fun _ _ hga he => he.fileExact hga.live hguard hf) hg hf
  rw [key.2.slots.liveRefs_eq]
  exact key.2.count i

theorem fcb_count_exact_small : ∃ ls t, Reaches smallLayout smallMem ls t ∧ ls.map Label.event = familyEvents ∧
    (t.fs.fcbTable 0).count = 1 ∧ liveRefs t 0 = 1 := by
  obtain ⟨s, ls, t, hboot, hrun, hevents, -, hcount, -⟩ := family_run
  have hguarded : Run (Guarded (fun a l => ReapsClosed a l.event) (Step smallLayout)) s ls t :=
    hrun.mono fun _ _ _ h => ⟨h.1.reapsClosed, h.2⟩
  have hexact := fcb_count_exact hboot hguarded 0
  rw [hcount] at hexact
  exact ⟨ls, t, .of_guarded hboot hrun, hevents, hcount, by exact_mod_cast hexact.symm⟩

/-- A child opens a file and exits without closing it; its parent reaps it. The count of the file stays. -/
theorem reap_leaks : ∃ ls t, Reaches smallLayout smallMem ls t ∧
    ls.map Label.event =
      [.timer false, .svc .fork, .svc (.wait 2), .svc (.openFile initBin), .svc .exit, .resume] ∧
    (t.fs.fcbTable 0).count = 1 ∧ liveRefs t 0 = 0 := by
  have h : (small [.timer false, .svc .fork, .svc (.wait 2), .svc (.openFile initBin), .svc .exit]).map (fun r =>
      decide ((r.2.kont r.2.current).waitedPid = some 2 ∧ (∀ i, (r.2.proc i).state = .killed ↔ i = 2) ∧
        (r.2.proc 2).pid = 2 ∧ (r.2.fs.fcbTable 0).count = 1 ∧ ∀ i fd, i ≠ 2 → (r.2.proc i).file fd = none)) =
      some true := by
    decide +kernel
  obtain ⟨⟨ls, t⟩, hr, hd⟩ := Option.map_eq_some_iff.mp h
  obtain ⟨hkont, hkilled, hpid, hcount, hclosed⟩ := of_decide_eq_true hd
  obtain ⟨u, y, hstep, hy, -, hzero, hothers, -, hfs, -⟩ := small_reaps hr (by decide) hkont ((hkilled 2).mpr rfl) hpid
  obtain rfl := (hkilled y).mp hy
  obtain ⟨s, hboot, hall⟩ := small_boot hr
  refine ⟨_, u, ⟨s, hboot, (performAll_run hall).snoc hstep⟩, ?_, ?_, ?_⟩
  · rw [List.map_append, performAll_events hall]
    rfl
  · rw [hfs]
    exact hcount
  · -- the slots of the child are cleared, and the other slots were empty
    have hnone : ∀ x, u.slot x = none := fun x => by
      by_cases hx : x.1 = 2
      · rw [Kernel.slot, hx, hzero]
        rfl
      · rw [Kernel.slot, hothers _ hx]
        exact hclosed _ _ hx
    simp [liveRefs, hnone]

/-! ## The counts of the entries -/

/-- As long as no slot that points to the entry `d` is closed, `d` is free exactly if no slot points to it, and
its count is the number of slots that do; closing such a slot breaks this. The entry 0 is closed when the kernel
starts. -/
theorem fileDesc_counted {d : Nat} (hd : d ≠ 0) (hboot : boot L m = .ok s)
    (hrun : Run (Guarded (fun a l => Keeps d a l.event) (Step L)) s ls t) :
    Counted t d ∧ ∀ p (fd : Fin numFile) u, (t.proc p).file fd = some d → closeFile p fd.val t = .ok u →
      ¬Counted u d := by
  have hfiles := boot_files hboot
  have key : Good t ∧ UnusedEmpty t ∧ Counted t d := by
    refine hrun.invariant (I := fun u => Good u ∧ UnusedEmpty u ∧ Counted u d)
      ⟨good_of_boot hboot, hfiles.slotsOpen.unused, hfiles.counted hd⟩ ?_
    rintro a l b ⟨hg, hf⟩ ⟨hguard, hstep⟩
    exact hstep.files (I := fun u => UnusedEmpty u ∧ Counted u d)
      (fun _ _ hga he hi => ⟨he.unusedEmpty hga.live hi.1, he.counted hi.1 hguard hi.2⟩) hg hf
  refine ⟨key.2.2, fun p fd u hfd hclose => ?_⟩
  obtain ⟨slot, d', i, hslot, hc⟩ := closeFile_closed hclose
  obtain rfl : fd = slot := Fin.ext (by exact_mod_cast hslot)
  obtain rfl : d = d' := Option.some.inj (hfd.symm.trans hc.slot)
  exact hc.not_counted key.2.2

/-- A process opens the file twice, closes the second descriptor again, and forks: two slots point to the entry of the
first. -/
theorem fileDesc_counted_small : ∃ ls t, Reaches smallLayout smallMem ls t ∧
    ls.map Label.event =
      [.timer false, .svc (.openFile initBin), .svc (.openFile initBin), .svc (.closeFile 1), .svc .fork] ∧
    Counted t 1 ∧ descRefs t 1 = 2 ∧ ∃ u, closeFile t.current firstFd.val t = .ok u ∧ ¬Counted u 1 := by
  obtain ⟨s, ls, t, hboot, hrun, hevents, hrefs, hslot, hclose⟩ := smallGuarded_run (P := KeepsHere 1)
    (Q := fun t => descRefs t 1 = 2 ∧ (t.proc t.current).file firstFd = some 1 ∧
      (closeFile t.current firstFd.val t).toOption.isSome)
    (show (smallGuarded (KeepsHere 1)
      [.timer false, .svc (.openFile initBin), .svc (.openFile initBin), .svc (.closeFile 1), .svc .fork]).map _ = some true
      by decide +kernel)
  have hguarded : Run (Guarded (fun a l => Keeps 1 a l.event) (Step smallLayout)) s ls t :=
    hrun.mono fun _ _ _ h => ⟨h.1.keeps, h.2⟩
  obtain ⟨u, hu⟩ := Option.isSome_iff_exists.mp hclose
  have hu := toOption_eq_some.mp hu
  obtain ⟨hcounted, hbreaks⟩ := fileDesc_counted (by decide) hboot hguarded
  exact ⟨ls, t, .of_guarded hboot hrun, hevents, hcounted, hrefs, u, hu, hbreaks t.current firstFd u hslot hu⟩

/-- The first user process opens a file and closes it again: the entry stays in use. -/
theorem close_leaks : ∃ s ls t, boot smallLayout smallMem = .ok s ∧ Run (Step smallLayout) s ls t ∧
    ls.map Label.event = [.timer false, .svc (.openFile initBin), .svc (.closeFile 0)] ∧
    (s.fs.fileDescTable 1).fcb = none ∧ (t.fs.fileDescTable 1).fcb = some 0 ∧
    (t.fs.fileDescTable 1).count = 1 ∧ descRefs t 1 = 0 := by
  have h : (small [.timer false, .svc (.openFile initBin), .svc (.closeFile 0)]).map (fun r =>
      decide ((r.2.fs.fileDescTable 1).fcb = some 0 ∧ (r.2.fs.fileDescTable 1).count = 1 ∧
        descRefs r.2 1 = 0)) = some true := by decide +kernel
  obtain ⟨⟨ls, t⟩, hr, hd⟩ := Option.map_eq_some_iff.mp h
  obtain ⟨s, hboot, hall⟩ := small_boot hr
  exact ⟨s, ls, t, hboot, performAll_run hall, performAll_events hall, (boot_files hboot).desc 1 (by decide),
    of_decide_eq_true hd⟩

end ArmOs
