import ArmOs.Lib.Refs
import ArmOs.Sched.Lemmas.Reach

/-!
# What the parts of a step do to the file tables

The file slots of the processes, `file_desc_table` and `fcb_table` change in four ways: a file is opened, a
file is closed, `fork` copies the slots of a process, and `wait` clears those of another.
-/

namespace ArmOs

open Lib

/-- A file slot of a process: `process_table[x.1].file[x.2]`. -/
abbrev Slot := Proc × Fin numFile

def Kernel.slot (s : Kernel) (x : Slot) : Option Nat := (s.proc x.1).file x.2

/-- The slot `fd` of the process `p` was opened: it points to the entry `d`, and `d` to the file `i`. -/
structure Opened (s t : Kernel) (p : Proc) (fd : Fin numFile) (d i : Nat) : Prop where
  slotFree : (s.proc p).file fd = none
  descFree : (s.fs.fileDescTable d).fcb = none
  first : freeFileDesc s.fs = some d
  file : (t.proc p).file = Function.update (s.proc p).file fd (some d)
  others : ∀ p', p' ≠ p → (t.proc p').file = (s.proc p').file
  live : ∀ p', t.Live p' ↔ s.Live p'
  fcbTable : t.fs.fcbTable = (getFcb s.memory.mem i s.fs).fcbTable
  desc : t.fs.fileDescTable = Function.update s.fs.fileDescTable d ⟨some i, 0, 1⟩

/-- The slot `fd` of the process `p`, which pointed to `d` and through it to the file `i`, was closed. -/
structure Closed (s t : Kernel) (p : Proc) (fd : Fin numFile) (d i : Nat) : Prop where
  slot : (s.proc p).file fd = some d
  fcb : (s.fs.fileDescTable d).fcb = some i
  count : 0 < (s.fs.fcbTable i).count
  file : (t.proc p).file = Function.update (s.proc p).file fd none
  others : ∀ p', p' ≠ p → (t.proc p').file = (s.proc p').file
  live : ∀ p', t.Live p' ↔ s.Live p'
  fcbTable : t.fs.fcbTable = Function.update s.fs.fcbTable i
    { s.fs.fcbTable i with count := int32 ((s.fs.fcbTable i).count - 1) }
  desc : t.fs.fileDescTable =
    if (s.fs.fileDescTable d).count = 0 then
      Function.update s.fs.fileDescTable d { s.fs.fileDescTable d with fcb := none }
    else s.fs.fileDescTable

namespace SameFiles

variable {s t : Kernel}

theorem slot (h : SameFiles s t) (x : Slot) : t.slot x = s.slot x := congrFun (h.file x.1) x.2

theorem ofFrame (h : SchedFrame s t) : SameFiles s t := of_eq h.file h.live h.fs

theorem setKont (h : SameFiles s t) (i : Proc) (k : Kont) : SameFiles s (t.setKont i k) :=
  ⟨h.file, h.live, h.fcbTable, h.desc⟩

end SameFiles

/-! ## `open_file`, `close_file` and `read_file` -/

theorem openFile_opened {p : Proc} {path : Nat → UInt8} {s t : Kernel} {r : Int}
    (h : openFile p path s = (r, t)) :
    (r = -1 ∧ t = s) ∨ ∃ fd d i, r = (fd.val : Int) ∧ Opened s t p fd d i := by
  have hlive := fun p' => (openFile_same p path s).live p'
  rw [h] at hlive
  unfold openFile at h
  split at h
  case h_1 => cases h; exact .inl ⟨rfl, rfl⟩
  case h_2 fd hfd =>
  split at h
  case h_1 => cases h; exact .inl ⟨rfl, rfl⟩
  case h_2 d hd =>
  dsimp only at h
  split at h
  case isTrue => cases h; exact .inl ⟨rfl, rfl⟩
  case isFalse =>
  cases h
  refine .inr ⟨fd, d, _, rfl, ?_, ?_, hd, ?_, fun p' hp => ?_, hlive, rfl, rfl⟩
  · simpa using (Fin.find?_eq_some_iff.mp hfd).1
  · simpa using (findFrom_eq_some.mp hd).2.2.1
  · simp [Kernel.proc, Process.setFile]
  · simp only [Kernel.proc, s.setProc_ne _ _ _ hp]

theorem deref_eq_ok {α : Type} {o : Option α} {a : α} : deref o = .ok a ↔ o = some a := by
  cases o with
  | none => exact ⟨nofun, nofun⟩
  | some b => simp [deref]

theorem closeFile_closed {p : Proc} {fd : Int} {s t : Kernel} (h : closeFile p fd s = .ok t) :
    ∃ slot d i, fd = (slot.val : Int) ∧ Closed s t p slot d i := by
  have hlive := fun p' => (closeFile_same h).live p'
  unfold closeFile at h
  split at h
  case isFalse => cases h
  case isTrue hfd =>
  obtain ⟨d, hd, h⟩ := bind_eq_ok.mp h
  obtain ⟨i, hi, h⟩ := bind_eq_ok.mp h
  obtain ⟨fs, hfs, h⟩ := bind_eq_ok.mp h
  obtain ⟨_, hcount, hfs⟩ := bind_eq_ok.mp hfs
  cases hfs
  cases h
  refine ⟨_, d, i, ?_, deref_eq_ok.mp hd, deref_eq_ok.mp hi, require_eq_ok.mp hcount, ?_, fun p' hp => ?_,
    hlive, ?_, ?_⟩
  · exact (Int.toNat_of_nonneg hfd.1).symm
  · simp [Kernel.proc, Process.setFile]
  · simp only [Kernel.proc, s.setProc_ne _ _ _ hp]
  · by_cases hz : (s.fs.fileDescTable d).count = 0 <;> simp [Fs.setFcb, Fs.setFileDesc, hz]
  · by_cases hz : (s.fs.fileDescTable d).count = 0 <;> simp [Fs.setFcb, Fs.setFileDesc, hz]

/-! ## Parts -/

variable {L : Layout}

/-- Why the slot `fd` is closed: by `close_file`, or by the `exec` that has just opened a free entry in it. -/
def ClosedBy (o : Kernel) (ev : Event) (s : Kernel) (fd : Fin numFile) (d : Nat) : Prop :=
  (ev = .svc (.closeFile (fd.val : Int)) ∧ s = o) ∨
    ((∃ path, ev = .svc (.exec path)) ∧ freeFileDesc o.fs = some d ∧ (s.fs.fileDescTable d).count = 1)

/-- `wait(pid)` finds `x` in the state `s`: the first process of `kill_list` with this event value. -/
def Finds (s : Kernel) (pid : Int) (x : Proc) : Prop :=
  ∃ ys zs, Represents s.processTable s.pc.killList (ys ++ x :: zs) ∧ (∀ y ∈ ys, (s.proc y).wait ≠ pid) ∧
    (s.proc x).wait = pid

/-- What a part of the step that handles `ev` from `o` on does to the file tables. -/
inductive FileEffect (L : Layout) (o : Kernel) (ev : Event) (s t : Kernel) : Prop
  | same : SameFiles s t → FileEffect L o ev s t
  | opened {fd d i path} : s = o → (ev = .svc (.openFile path) ∨ ev = .svc (.exec path)) →
      Opened s t s.current fd d i → FileEffect L o ev s t
  | closed {fd d i} : ClosedBy o ev s fd d → Closed s t s.current fd d i → FileEffect L o ev s t
  | forked {i} : s = o → ev = .svc .fork → Forked s t i → FileEffect L o ev s t
  | reaped {q lost pid x ys zs} : AtWait o ev pid s → Finds s pid x → Reaped L s t q lost pid x ys zs →
      FileEffect L o ev s t

theorem Part.fileEffect {o : Kernel} {ev : Event} {s t : Kernel} (h : Good s) (hp : Part L o ev s t) :
    FileEffect L o ev s t := by
  obtain ⟨q, lost, hq⟩ := h.sched
  cases hp with
  | tick _ n => exact .same (.of_eq (fun _ => rfl) (fun _ => Iff.rfl) rfl)
  | writeKey _ ch =>
      refine .same (.of_eq (fun p => ?_) (fun p => (writeKeyBuffer_same ch s).live p) ?_)
      · unfold writeKeyBuffer
        dsimp only
        split <;> rfl
      · unfold writeKeyBuffer
        dsimp only
        split <;> rfl
  | wakeUp hrun =>
      obtain ⟨t', hrun', hw⟩ := wakeUp_spec hq.queues _
      obtain rfl := Except.ok.inj (hrun'.symm.trans hrun)
      exact .same (.ofFrame hw.frame)
  | yield hrun =>
      obtain ⟨t', q', lost', hrun', -, -, hsw⟩ := yield_spec hq
      obtain rfl := Except.ok.inj (hrun'.symm.trans hrun)
      exact .same (.ofFrame hsw.frame)
  | @sleep _ t w k hm hrun =>
      obtain ⟨t', hrun', -, hsw⟩ := sleep_spec hq hm.notIdle w
      obtain rfl := Except.ok.inj (hrun'.symm.trans hrun)
      exact .same ((SameFiles.ofFrame hsw.frame).setKont _ _)
  | exit hc hk hrun =>
      obtain ⟨t', hrun', hsw⟩ := exit_spec hq hc
      obtain rfl := Except.ok.inj (hrun'.symm.trans hrun)
      exact .same ⟨hsw.frame.file, hsw.frame.live, by rw [hsw.frame.fs]; rfl, fun d => by rw [hsw.frame.fs]; rfl⟩
  | resume _ hc => exact .same (.of_eq (fun _ => rfl) (fun _ => Iff.rfl) rfl)
  | reap hc hat hrun =>
      rcases wait_ok hq hrun with ⟨-, x, ys, zs, hr⟩ | ⟨hf, -⟩
      · exact .reaped hat ⟨ys, zs, hr.list ▸ hq.queues.represents .kill, hr.before, hr.wait⟩ hr
      · cases hf
  | fork hc hev hrun =>
      obtain ⟨i, hf, -, -⟩ := fork_spec hq hrun
      exact .forked rfl hev hf
  | openFile path hc hev =>
      have hopen : ArmOs.openFile o.current path o = (_, _) := Prod.mk.eta.symm
      rcases openFile_opened hopen with
        ⟨-, ht⟩ | ⟨fd, d, i, -, ho⟩
      · rw [ht]
        exact .same (.of_eq (fun _ => rfl) (fun _ => Iff.rfl) rfl)
      · exact .opened rfl hev ho
  | closeFile hc hev hrun =>
      obtain ⟨slot, d, i, rfl, hcl⟩ := closeFile_closed hrun
      refine .closed ?_ hcl
      rcases hev with hev | ⟨hcur, path, a, hev, hopen, hne, hsame⟩
      · exact .inl hev
      · -- the slot that is closed is the one that was opened
        rcases openFile_opened hopen with ⟨hfd, -⟩ | ⟨slot', d', i', hfd, ho⟩
        · exact absurd hfd hne
        · obtain rfl : slot = slot' := Fin.ext (by exact_mod_cast hfd)
          have hd : (s.proc s.current).file slot = some d' := by
            rw [hcur, hsame.file, ho.file, Function.update_self]
          obtain rfl : d = d' := Option.some.inj (hcl.slot.symm.trans hd)
          refine .inr ⟨⟨path, hev⟩, ho.first, ?_⟩
          rw [hsame.count, ho.desc, Function.update_self]
  | readFile hc hrun hev => exact .same (readFile_sameFiles hrun)
  | readRoot hc hev hrun =>
      obtain ⟨m, _, hrun⟩ := bind_eq_ok.mp hrun
      cases hrun
      exact .same (.setMem s m)
  | takeKey hc htake => exact .same (.of_eq (fun _ => rfl) (fun _ => Iff.rfl) rfl)
  | setX0 _ v hc => exact .same (.setMem s _)
  | clearUser hc hdst => exact .same (.setMem s _)
  | newFrame _ hc => exact .same (.setMem s _)
  | store hc hev hva hwalk => exact .same (.setMem s _)

end ArmOs
