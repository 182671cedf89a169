import ArmOs.Files.Lemmas.Counts

/-!
# Invariants of the reference counts

`surplus` is by how much the count of a file exceeds the number of slots that reach it. Opening, closing and
`fork` keep it and `wait` can only raise it, so it is never negative (`FileInv`, as long as no count
overflows), and 0 as long as `wait` reaps only processes that have closed their files (`FileExact`).
`Counted` is the same for one entry of `file_desc_table`; it holds as long as no slot that points to the entry
is closed.
-/

namespace ArmOs

open Lib

variable {L : Layout} {s t o : Kernel} {ev : Event}

theorem Step.files {I : Kernel → Prop} {l : Label}
    (hI : ∀ ⦃a b⦄, Good a → FileEffect L s l.event a b → I a → I b) (h : Good s) (hstep : Step L s l t)
    (hs : I s) : Good t ∧ I t :=
  hstep.preserves (fun _ _ ha hp => hI ha (hp.fileEffect ha)) h hs

/-! ## Slots point to entries in use -/

/-- Every slot that is not `NULL` belongs to a process in use and points to an entry in use. -/
structure SlotsOpen (s : Kernel) : Prop where
  unused : UnusedEmpty s
  desc : ∀ x d, s.slot x = some d → ∃ i, (s.fs.fileDescTable d).fcb = some i

/-- No slot points to the entry that `open_file` takes. -/
theorem Opened.not_slot {p : Proc} {fd : Fin numFile} {d i : Nat} (h : Opened s t p fd d i) (hs : SlotsOpen s)
    (x : Slot) : s.slot x ≠ some d := by
  intro hx
  obtain ⟨i, hi⟩ := hs.desc x d hx
  rw [h.descFree] at hi
  cases hi

/-- The part from `s` frees no entry, by closing a slot, that other slots point to. -/
def ClosesCounted (o : Kernel) (ev : Event) (s : Kernel) : Prop :=
  ∀ fd d, ClosedBy o ev s fd d → (s.proc s.current).file fd = some d →
    (s.fs.fileDescTable d).count ≠ 0 ∨ ∀ x, x ≠ (s.current, fd) → s.slot x ≠ some d

theorem FileEffect.slotsOpen (he : FileEffect L o ev s t) (hcur : s.Live s.current)
    (hcl : ClosesCounted o ev s) (h : SlotsOpen s) : SlotsOpen t := by
  refine ⟨he.unusedEmpty hcur h.unused, fun x k hx => ?_⟩
  cases he with
  | same hs =>
      rw [hs.slot] at hx
      rw [hs.fcb]
      exact h.desc x k hx
  | @opened fd d i path ho hev hop =>
      rw [hop.fcb]
      by_cases hkd : k = d
      · exact ⟨i, if_pos hkd⟩
      · rw [if_neg hkd]
        rw [hop.slot_eq] at hx
        by_cases hxs : x = (s.current, fd)
        · subst hxs
          rw [Function.update_self] at hx
          exact absurd (Option.some.inj hx).symm hkd
        · rw [Function.update_of_ne hxs] at hx
          exact h.desc x k hx
  | @closed fd d i hev hc =>
      rw [hc.fcb_eq (hcl fd d hev hc.slot) hx]
      rw [hc.slot_eq] at hx
      by_cases hxs : x = (s.current, fd)
      · subst hxs
        rw [Function.update_self] at hx
        cases hx
      · rw [Function.update_of_ne hxs] at hx
        exact h.desc x k hx
  | @forked j ho hev hf =>
      rw [hf.countedUp.desc]
      by_cases hxj : x.1 = j
      · -- the child holds what its parent holds
        refine h.desc (s.current, x.2) k ?_
        rw [Kernel.slot, hxj, hf.file] at hx
        exact hx
      · refine h.desc x k ?_
        rw [Kernel.slot, hf.others x.1 hxj] at hx
        exact hx
  | @reaped q lost pid x' ys zs hat hfind hr =>
      have hxx : x.1 ≠ x' := by
        intro hxx
        rw [Kernel.slot, hxx, hr.zero] at hx
        cases hx
      rw [hr.fs]
      refine h.desc x k ?_
      rw [Kernel.slot, hr.others x.1 hxx] at hx
      exact hx

/-! ## The counts of the files -/

/-- By how much the count of a file exceeds the number of slots that reach it. -/
def surplus (s : Kernel) (i : Nat) : Int := (s.fs.fcbTable i).count - fcbRefs s i

/-- By how much the step that handles `ev` may raise the count of what the slots with the property reach. -/
def countGain (s : Kernel) (ev : Event) (P : Nat → Bool) : Nat :=
  match ev with
  | .svc (.openFile _) | .svc (.exec _) => 1
  | .svc .fork => refs (s.proc s.current).file P
  | _ => 0

theorem countGain_le (s : Kernel) (ev : Event) (P : Nat → Bool) : countGain s ev P ≤ 100 := by
  unfold countGain
  split
  · omega
  · omega
  · exact (refs_le_card _ _).trans (Fintype.card_fin numFile).le
  · omega

/-- The counts of the files are an `int` in every state, and no smaller than the numbers of references. -/
structure FcbCounts (s : Kernel) : Prop where
  lt : ∀ i, (s.fs.fcbTable i).count < 2 ^ 31
  surplus : ∀ i, 0 ≤ surplus s i

theorem FcbCounts.nonneg (h : FcbCounts s) (i : Nat) : 0 ≤ (s.fs.fcbTable i).count := by
  have := h.surplus i
  rw [ArmOs.surplus] at this
  omega

theorem int32_lt (x : Int) : int32 x < 2 ^ 31 := by
  simp only [int32]
  omega

theorem FileEffect.fcbCounts (he : FileEffect L o ev s t) (hs : SlotsOpen s) (hcl : ClosesCounted o ev s)
    (hfit : ∀ i, (o.fs.fcbTable i).count + countGain o ev (o.fs.reaches i) < 2 ^ 31) (h : FcbCounts s) :
    (∀ i, (t.fs.fcbTable i).count < 2 ^ 31) ∧
      ((∀ i, surplus t i = surplus s i) ∨ ∃ q lost pid x ys zs, AtWait o ev pid s ∧ Finds s pid x ∧
        Reaped L s t q lost pid x ys zs ∧
          ∀ i, surplus t i = surplus s i + refs (s.proc x).file (s.fs.reaches i)) := by
  cases he with
  | same hs' =>
      refine ⟨by rw [hs'.fcbTable]; exact h.lt, .inl fun i => ?_⟩
      rw [surplus, surplus, fcbRefs, hs'.slot_eq, hs'.reaches_eq, hs'.fcbTable]
      rfl
  | @opened fd d i path ho hev hop =>
      subst ho
      have hgain : countGain s ev (s.fs.reaches i) = 1 := by rcases hev with rfl | rfl <;> rfl
      refine ⟨fun i' => ?_, .inl fun i' => ?_⟩
      · rw [hop.fcbCount]
        split
        · exact int32_lt _
        · exact h.lt i'
      · have hlt := hfit i
        have h₀ := h.nonneg i
        rw [surplus, surplus, hop.fcbRefs_eq (hop.not_slot hs), hop.fcbCount]
        by_cases hi : i' = i
        · subst hi
          rw [if_pos rfl, if_pos rfl, int32_of_mem (by omega) (by omega)]
          omega
        · rw [if_neg hi, if_neg hi]
          omega
  | @closed fd d i hev hc =>
      refine ⟨fun i' => ?_, .inl fun i' => ?_⟩
      · rw [hc.fcbCount]
        split
        · exact int32_lt _
        · exact h.lt i'
      · have hlt := h.lt i
        have hpos := hc.count
        rw [surplus, surplus, hc.fcbRefs_eq (hcl fd d hev hc.slot), hc.fcbCount]
        by_cases hi : i' = i
        · subst hi
          rw [if_pos rfl, if_pos rfl, int32_of_mem (by omega) (by omega)]
          omega
        · rw [if_neg hi, if_neg hi]
          omega
  | @forked j ho hev hf =>
      subst ho
      subst hev
      have hcount := fun i => hf.fcbCount i (h.nonneg i) (hfit i)
      refine ⟨fun i => ?_, .inl fun i => ?_⟩
      · rw [hcount]
        exact hfit i
      · rw [surplus, surplus, hcount, fcbRefs, hf.refs_eq hs.unused, hf.reaches_eq, fcbRefs]
        omega
  | @reaped q lost pid x ys zs hat hfind hr =>
      refine ⟨by rw [hr.fs]; exact h.lt, .inr ⟨q, lost, pid, x, ys, zs, hat, hfind, hr, fun i => ?_⟩⟩
      rw [surplus, surplus, fcbRefs, fcbRefs, hr.refs_eq, hr.fs]
      omega

/-! ## No dangling slots -/

/-- No reference count overflows in the step that handles `ev`. -/
structure CountsFit (s : Kernel) (ev : Event) : Prop where
  desc : ∀ d, (s.fs.fileDescTable d).count + countGain s ev (fun k => k = d) < 2 ^ 31
  fcb : ∀ i, (s.fs.fcbTable i).count + countGain s ev (s.fs.reaches i) < 2 ^ 31

structure FileInv (s : Kernel) : Prop where
  slots : SlotsOpen s
  descPos : ∀ d i, (s.fs.fileDescTable d).fcb = some i → 1 ≤ (s.fs.fileDescTable d).count
  counts : FcbCounts s

theorem FileInv.count_ne (h : FileInv s) {x : Slot} {d : Nat} (hd : s.slot x = some d) :
    (s.fs.fileDescTable d).count ≠ 0 := by
  obtain ⟨i, hi⟩ := h.slots.desc x d hd
  have := h.descPos d i hi
  omega

theorem FileInv.closesCounted (h : FileInv s) : ClosesCounted o ev s := fun fd _ _ hd =>
  .inl (h.count_ne (x := (s.current, fd)) hd)

theorem FileEffect.descPos (he : FileEffect L o ev s t) (hfit : CountsFit o ev) (h : FileInv s) (k i' : Nat)
    (hk : (t.fs.fileDescTable k).fcb = some i') : 1 ≤ (t.fs.fileDescTable k).count := by
  cases he with
  | same hs =>
      rw [hs.fcb] at hk
      rw [hs.count]
      exact h.descPos k i' hk
  | @opened fd d i path ho hev hop =>
      rw [hop.desc] at hk ⊢
      by_cases hkd : k = d
      · subst hkd
        simp
      · rw [Function.update_of_ne hkd] at hk ⊢
        exact h.descPos k i' hk
  | @closed fd d i hev hc =>
      rw [hc.desc_eq (h.count_ne (x := (s.current, fd)) hc.slot)] at hk ⊢
      exact h.descPos k i' hk
  | @forked j ho hev hf =>
      subst ho
      subst hev
      rw [hf.countedUp.desc] at hk
      have hpos := h.descPos k i' hk
      rw [hf.descCount k (by omega) (hfit.desc k)]
      omega
  | @reaped q lost pid x ys zs hat hfind hr =>
      rw [hr.fs] at hk ⊢
      exact h.descPos k i' hk

theorem FileEffect.fileInv (he : FileEffect L o ev s t) (hcur : s.Live s.current) (hfit : CountsFit o ev)
    (h : FileInv s) : FileInv t := by
  obtain ⟨hlt, hsurplus⟩ := he.fcbCounts h.slots h.closesCounted hfit.fcb h.counts
  refine ⟨he.slotsOpen hcur h.closesCounted h.slots, he.descPos hfit h, hlt, fun i => ?_⟩
  have hold := h.counts.surplus i
  rcases hsurplus with heq | ⟨q, lost, pid, x, ys, zs, -, -, -, heq⟩
  · rw [heq]
    exact hold
  · rw [heq]
    omega

/-! ## Short runs -/

/-- No count is above `n`. -/
structure CountsLe (n : Nat) (s : Kernel) : Prop where
  desc : ∀ d, 0 ≤ (s.fs.fileDescTable d).count ∧ (s.fs.fileDescTable d).count ≤ n
  fcb : ∀ i, (s.fs.fcbTable i).count ≤ n

namespace CountsLe

variable {n : Nat}

theorem mono (h : CountsLe n s) {k : Nat} (hk : n ≤ k) : CountsLe k s :=
  ⟨fun d => ⟨(h.desc d).1, (h.desc d).2.trans (by omega)⟩, fun i => (h.fcb i).trans (by omega)⟩

theorem countsFit (h : CountsLe n s) (hn : n + 100 < 2 ^ 31) (ev : Event) : CountsFit s ev := by
  refine ⟨fun d => ?_, fun i => ?_⟩
  · have hgain := countGain_le s ev fun k => k = d
    have hdesc := (h.desc d).2
    omega
  · have hgain := countGain_le s ev (s.fs.reaches i)
    have hfcb := h.fcb i
    omega

/-- A step raises no count by more than the number of slots of a process. -/
theorem part (ho : CountsLe n o) (hn : n + 100 < 2 ^ 31) (hf : FileInv s) (h : CountsLe (n + 100) s)
    (he : FileEffect L o ev s t) : CountsLe (n + 100) t := by
  cases he with
  | same hs =>
      refine ⟨fun d => ?_, fun i => ?_⟩
      · rw [hs.count]
        exact h.desc d
      · rw [hs.fcbTable]
        exact h.fcb i
  | @opened fd d i path hos hev hop =>
      subst hos
      refine ⟨fun k => ?_, fun j => ?_⟩
      · rw [hop.desc]
        by_cases hk : k = d
        · subst hk
          rw [Function.update_self]
          exact ⟨Int.one_nonneg, by show (1 : Int) ≤ _; omega⟩
        · rw [Function.update_of_ne hk]
          exact h.desc k
      · have hold := ho.fcb i
        have hnonneg := hf.counts.nonneg i
        rw [hop.fcbCount]
        split
        · rw [int32_of_mem (by omega) (by omega)]
          omega
        · exact h.fcb j
  | @closed fd d i hev hc =>
      refine ⟨fun k => ?_, fun j => ?_⟩
      · rw [hc.desc_eq (hf.count_ne (x := (s.current, fd)) hc.slot)]
        exact h.desc k
      · have hold := h.fcb i
        have hpos := hc.count
        rw [hc.fcbCount]
        split
        · rw [int32_of_mem (by omega) (by omega)]
          omega
        · exact h.fcb j
  | @forked j hos hev hforked =>
      subst hos
      subst hev
      have hfit := ho.countsFit hn (.svc .fork)
      refine ⟨fun k => ?_, fun i => ?_⟩
      · have hgain := countGain_le s (.svc .fork) fun k' => k' = k
        have hold := ho.desc k
        rw [hforked.descCount k hold.1 (hfit.desc k)]
        rw [countGain] at hgain
        omega
      · have hgain := countGain_le s (.svc .fork) (s.fs.reaches i)
        have hold := ho.fcb i
        rw [hforked.fcbCount i (hf.counts.nonneg i) (hfit.fcb i)]
        rw [countGain] at hgain
        omega
  | @reaped q lost pid x ys zs hat hfind hr =>
      refine ⟨fun d => ?_, fun i => ?_⟩
      · rw [hr.fs]
        exact h.desc d
      · rw [hr.fs]
        exact h.fcb i

theorem step {l : Label} (h : CountsLe n s) (hn : n + 100 < 2 ^ 31) (hg : Good s) (hf : FileInv s)
    (hstep : Step L s l t) : Good t ∧ FileInv t ∧ CountsLe (n + 100) t := by
  refine hstep.files (I := fun u => FileInv u ∧ CountsLe (n + 100) u) ?_ hg ⟨hf, h.mono (by omega)⟩
  rintro a b ha he ⟨hfa, hle⟩
  exact ⟨he.fileInv ha.live (h.countsFit hn _) hfa, h.part hn hfa hle he⟩

end CountsLe

/-! ## Exact counts of the files -/

structure FileExact (s : Kernel) : Prop where
  slots : SlotsOpen s
  count : ∀ i, (s.fs.fcbTable i).count = fcbRefs s i

theorem FileExact.counts (h : FileExact s) : FcbCounts s where
  lt i := by
    have := fcbRefs_le s i
    rw [h.count]
    omega
  surplus i := by rw [surplus, h.count, sub_self]

/-- The step that handles `ev` reaps no process with open files. It closes no slot whose entry has the count 0,
to which `fork` may have raised it, while other slots point to the entry. -/
structure ReapsClosed (o : Kernel) (ev : Event) : Prop where
  close : ∀ (fd : Fin numFile) d, ev = .svc (.closeFile (fd.val : Int)) → (o.proc o.current).file fd = some d →
    (o.fs.fileDescTable d).count ≠ 0 ∨ ∀ x, x ≠ (o.current, fd) → o.slot x ≠ some d
  reap : ∀ pid a x, AtWait o ev pid a → Finds a pid x → ∀ fd, (a.proc x).file fd = none

/-- The pid that `wait` looks for in the step that handles `ev`. -/
def waitedPid (o : Kernel) : Event → Option Int
  | .svc (.wait pid) => some pid
  | .resume => (o.kont o.current).waitedPid
  | _ => none

theorem AtWait.waitedPid {pid : Int} (h : AtWait o ev pid s) :
    ArmOs.waitedPid o ev = some pid ∧ s.processTable = o.processTable := by
  rcases h with ⟨rfl, rfl⟩ | ⟨rfl, ⟨tf, hk⟩, rfl⟩
  · exact ⟨rfl, rfl⟩
  · exact ⟨by rw [ArmOs.waitedPid, hk]; rfl, rfl⟩

/-- What `wait` finds in the step has the pid that it looks for as its event value. -/
theorem AtWait.finds {pid : Int} {x : Proc} (h : AtWait o ev pid s) (hx : Finds s pid x) :
    (o.proc x).wait = pid ∧ (s.proc x).file = (o.proc x).file := by
  obtain ⟨ys, zs, -, -, hwait⟩ := hx
  have hproc : s.proc x = o.proc x := congrFun h.waitedPid.2 x
  rw [hproc] at hwait
  exact ⟨hwait, by rw [hproc]⟩

def Event.closedFd : Event → Option Int
  | .svc (.closeFile fd) => some fd
  | _ => none

/-- A condition that can be evaluated and is enough for `ReapsClosed`. -/
def ReapsClosedHere (o : Kernel) (ev : Event) : Prop :=
  (∀ fd : Fin numFile, ev.closedFd = some (fd.val : Int) →
      ∀ d ∈ (o.proc o.current).file fd, (o.fs.fileDescTable d).count ≠ 0) ∧
    ∀ pid ∈ waitedPid o ev, ∀ x, (o.proc x).wait = pid → ∀ fd, (o.proc x).file fd = none

instance (o : Kernel) (ev : Event) : Decidable (ReapsClosedHere o ev) :=
  inferInstanceAs (Decidable ((∀ fd : Fin numFile, ev.closedFd = some (fd.val : Int) →
      ∀ d ∈ (o.proc o.current).file fd, (o.fs.fileDescTable d).count ≠ 0) ∧
    ∀ pid ∈ waitedPid o ev, ∀ x, (o.proc x).wait = pid → ∀ fd, (o.proc x).file fd = none))

theorem ReapsClosedHere.reapsClosed (h : ReapsClosedHere o ev) : ReapsClosed o ev := by
  refine ⟨fun fd d hev hd => ?_, fun pid a x hat hx fd => ?_⟩
  · subst hev
    exact .inl (h.1 fd rfl d hd)
  · obtain ⟨hwait, hfile⟩ := hat.finds hx
    rw [hfile]
    exact h.2 pid hat.waitedPid.1 x hwait fd

theorem ReapsClosed.closesCounted (h : ReapsClosed o ev) : ClosesCounted o ev s := by
  rintro fd d (⟨hev, rfl⟩ | ⟨-, -, hone⟩) hd
  · exact h.close fd d hev hd
  · exact .inl (by omega)

theorem FileEffect.fileExact (he : FileEffect L o ev s t) (hcur : s.Live s.current) (hg : ReapsClosed o ev)
    (ho : FileExact o) (h : FileExact s) : FileExact t := by
  have hfit : ∀ i, (o.fs.fcbTable i).count + countGain o ev (o.fs.reaches i) < 2 ^ 31 := by
    intro i
    have h₁ := fcbRefs_le o i
    have h₂ := countGain_le o ev (o.fs.reaches i)
    rw [ho.count]
    omega
  obtain ⟨-, hsurplus⟩ := he.fcbCounts h.slots hg.closesCounted hfit h.counts
  refine ⟨he.slotsOpen hcur hg.closesCounted h.slots, fun i => ?_⟩
  have hold : surplus s i = 0 := by rw [surplus, h.count, sub_self]
  refine sub_eq_zero.mp (show surplus t i = 0 from ?_)
  rcases hsurplus with heq | ⟨q, lost, pid, x, ys, zs, hat, hfind, hr, heq⟩
  · rw [heq, hold]
  · have hnone : (s.proc x).file = fun _ => none := funext (hg.reap pid s x hat hfind)
    rw [heq, hold, hnone, refs_none]
    rfl

/-! ## The count of an entry of `file_desc_table` -/

/-- The entry is free exactly if no slot points to it, and otherwise its count is the number of those. -/
structure Counted (s : Kernel) (d : Nat) : Prop where
  free : (s.fs.fileDescTable d).fcb = none ↔ descRefs s d = 0
  count : (s.fs.fileDescTable d).fcb ≠ none → (s.fs.fileDescTable d).count = descRefs s d

/-- The step that handles `ev` closes no slot that points to the entry `d`: not by `close_file`, not by the
`close_file` of an `exec` that may have taken `d`, and not by reaping a process. -/
structure Keeps (d : Nat) (o : Kernel) (ev : Event) : Prop where
  close : ∀ fd : Fin numFile, ev = .svc (.closeFile (fd.val : Int)) → (o.proc o.current).file fd ≠ some d
  exec : ∀ path, ev = .svc (.exec path) → freeFileDesc o.fs ≠ some d
  reap : ∀ pid a x, AtWait o ev pid a → Finds a pid x → ∀ fd, (a.proc x).file fd ≠ some d

def Event.isExec : Event → Bool
  | .svc (.exec _) => true
  | _ => false

/-- A condition that can be evaluated and is enough for `Keeps`. -/
def KeepsHere (d : Nat) (o : Kernel) (ev : Event) : Prop :=
  (∀ fd : Fin numFile, ev.closedFd = some (fd.val : Int) → (o.proc o.current).file fd ≠ some d) ∧
    (ev.isExec → freeFileDesc o.fs ≠ some d) ∧
    ∀ pid ∈ waitedPid o ev, ∀ x, (o.proc x).wait = pid → ∀ fd, (o.proc x).file fd ≠ some d

instance (d : Nat) (o : Kernel) (ev : Event) : Decidable (KeepsHere d o ev) :=
  inferInstanceAs (Decidable ((∀ fd : Fin numFile, ev.closedFd = some (fd.val : Int) →
      (o.proc o.current).file fd ≠ some d) ∧
    (ev.isExec → freeFileDesc o.fs ≠ some d) ∧
    ∀ pid ∈ waitedPid o ev, ∀ x, (o.proc x).wait = pid → ∀ fd, (o.proc x).file fd ≠ some d))

theorem KeepsHere.keeps {d : Nat} (h : KeepsHere d o ev) : Keeps d o ev := by
  refine ⟨fun fd hev => ?_, fun path hev => ?_, fun pid a x hat hx fd => ?_⟩
  · subst hev
    exact h.1 fd rfl
  · subst hev
    exact h.2.1 rfl
  · obtain ⟨hwait, hfile⟩ := hat.finds hx
    rw [hfile]
    exact h.2.2 pid hat.waitedPid.1 x hwait fd

theorem Counted.congr {d : Nat} (h : Counted s d) (hrefs : descRefs t d = descRefs s d)
    (hfcb : (t.fs.fileDescTable d).fcb = (s.fs.fileDescTable d).fcb)
    (hcount : (t.fs.fileDescTable d).count = (s.fs.fileDescTable d).count) : Counted t d :=
  ⟨by rw [hfcb, hrefs]; exact h.free, by rw [hfcb, hcount, hrefs]; exact h.count⟩

theorem FileEffect.counted {d : Nat} (he : FileEffect L o ev s t) (hu : UnusedEmpty s) (hg : Keeps d o ev)
    (h : Counted s d) : Counted t d := by
  cases he with
  | same hs =>
      refine h.congr ?_ (hs.fcb d) (hs.count d)
      rw [descRefs, hs.slot_eq, descRefs]
  | @opened fd d' i path ho hev hop =>
      have hrefs : descRefs t d = descRefs s d + if d' = d then 1 else 0 := by
        rw [descRefs, hop.refs_eq, descRefs]
        simp
      by_cases hd : d' = d
      · subst hd
        have hzero := h.free.mp hop.descFree
        have hentry : t.fs.fileDescTable d' = ⟨some i, 0, 1⟩ := by rw [hop.desc, Function.update_self]
        rw [if_pos rfl, hzero] at hrefs
        exact ⟨by rw [hentry, hrefs]; simp, fun _ => by rw [hentry, hrefs]; rfl⟩
      · have hentry : t.fs.fileDescTable d = s.fs.fileDescTable d := by
          rw [hop.desc, Function.update_of_ne (Ne.symm hd)]
        rw [if_neg hd] at hrefs
        exact h.congr hrefs (by rw [hentry]) (by rw [hentry])
  | @closed fd d' i hev hc =>
      have hd : d ≠ d' := by
        rintro rfl
        rcases hev with ⟨hev, rfl⟩ | ⟨⟨path, hev⟩, hfree, -⟩
        · exact hg.close fd hev hc.slot
        · exact hg.exec path hev hfree
      have hrefs : descRefs t d = descRefs s d := by
        have := hc.refs_eq fun k => k = d
        simp only [Ne.symm hd, decide_false, Bool.false_eq_true, if_false, add_zero] at this
        exact this.symm
      exact h.congr hrefs (by rw [hc.desc_ne hd]) (by rw [hc.desc_ne hd])
  | @forked j ho hev hf =>
      subst ho
      have hrefs : descRefs t d = descRefs s d + refs (s.proc s.current).file fun k => k = d :=
        hf.refs_eq hu _
      have hrow : refs (s.proc s.current).file (fun k => k = d) ≤ descRefs s d :=
        refs_row_le s.slot s.current _
      have hfcb : (t.fs.fileDescTable d).fcb = (s.fs.fileDescTable d).fcb := by rw [hf.countedUp.desc]
      refine ⟨?_, fun hne => ?_⟩
      · rw [hfcb, h.free, hrefs]
        omega
      · rw [hfcb] at hne
        have hcount := h.count hne
        have hle := descRefs_le s d
        rw [hf.descCount d (by omega) (by omega), hrefs, hcount]
        omega
  | @reaped q lost pid x ys zs hat hfind hr =>
      have hrow : refs (s.proc x).file (fun k => k = d) = 0 :=
        refs_eq_zero_iff.mpr fun fd k hk => by
          have := hg.reap pid s x hat hfind fd
          rw [hk] at this
          simpa using this
      have hrefs := hr.refs_eq fun k => k = d
      rw [hrow, add_zero] at hrefs
      exact h.congr hrefs.symm (by rw [hr.fs]) (by rw [hr.fs])

/-- Closing a slot that points to the entry breaks it: the count stays. -/
theorem Closed.not_counted {p : Proc} {fd : Fin numFile} {d i : Nat} (hc : Closed s t p fd d i)
    (h : Counted s d) : ¬Counted t d := by
  intro ht
  have hrefs := hc.refs_eq fun k => k = d
  simp only [decide_true, if_true] at hrefs
  change descRefs s d = descRefs t d + 1 at hrefs
  have hcount := h.count (by rw [hc.fcb]; simp)
  have hentry := hc.desc_eq (by omega)
  have hcount' := ht.count (by rw [hentry, hc.fcb]; simp)
  rw [hentry] at hcount'
  omega

end ArmOs
