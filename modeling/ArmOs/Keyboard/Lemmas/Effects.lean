import ArmOs.Lib.Ring
import ArmOs.Sched.Lemmas.Reach

/-!
# What the parts of a step do to the keyboard buffer

The interrupt handler writes a character, and `read_key_buffer` takes one. Nothing else touches the buffer.
-/

namespace ArmOs

open Lib

/-- What a trace does to the keyboard buffer. -/
def keyOps (tr : List Obs) : List (QueueOp UInt8) :=
  tr.filterMap fun
    | .keyIn ch => some (.enq ch)
    | .keyOut ch => some (.deq ch)
    | _ => none

theorem keyOps_append (tr tr' : List Obs) : keyOps (tr ++ tr') = keyOps tr ++ keyOps tr' := by simp [keyOps]

theorem keyOps_eq_nil {os : List Obs} (h : ∀ o ∈ os, ¬o.isKey) : keyOps os = [] := by
  refine List.filterMap_eq_nil_iff.mpr fun o ho => ?_
  cases o with
  | keyIn ch => exact absurd trivial (h _ ho)
  | keyOut ch => exact absurd trivial (h _ ho)
  | append | dispatch | exit | reap => rfl

/-- The keyboard buffer is the same, and no character was written or taken. -/
structure SameKeys (s t : Kernel) : Prop where
  keyBuffer : t.keyBuffer = s.keyBuffer
  ops : keyOps t.trace = keyOps s.trace

namespace SameKeys

variable {s t u : Kernel}

theorem refl (s : Kernel) : SameKeys s s := ⟨rfl, rfl⟩

theorem trans (h : SameKeys s t) (h' : SameKeys t u) : SameKeys s u :=
  ⟨h'.keyBuffer.trans h.keyBuffer, h'.ops.trans h.ops⟩

theorem of_trace (hk : t.keyBuffer = s.keyBuffer) {os : List Obs} (htr : t.trace = s.trace ++ os)
    (hos : ∀ o ∈ os, ¬o.isKey) : SameKeys s t :=
  ⟨hk, by rw [htr, keyOps_append, keyOps_eq_nil hos, List.append_nil]⟩

theorem setMem (s : Kernel) (m : Mem) : SameKeys s (s.setMem m) := ⟨rfl, rfl⟩

theorem setKont (s : Kernel) (i : Proc) (k : Kont) : SameKeys s (s.setKont i k) := ⟨rfl, rfl⟩

theorem ofFrame (h : SchedFrame s t) : SameKeys s t := by
  obtain ⟨os, hos, hall⟩ := h.trace
  refine of_trace h.keyBuffer hos fun o ho => ?_
  have := hall o ho
  cases o <;> first | exact id | exact absurd this id

end SameKeys

/-! ## The functions of the file system -/

theorem openFile_keys (p : Proc) (path : Nat → UInt8) (s : Kernel) : SameKeys s (openFile p path s).2 := by
  unfold openFile
  split
  · exact .refl s
  · split
    · exact .refl s
    · dsimp only
      split <;> exact ⟨rfl, rfl⟩

theorem closeFile_keys {p : Proc} {fd : Int} {s t : Kernel} (h : closeFile p fd s = .ok t) : SameKeys s t := by
  unfold closeFile at h
  split at h
  · obtain ⟨d, _, h⟩ := bind_eq_ok.mp h
    obtain ⟨fcb, _, h⟩ := bind_eq_ok.mp h
    obtain ⟨fs, _, h⟩ := bind_eq_ok.mp h
    cases h
    exact ⟨rfl, rfl⟩
  · cases h

theorem readFile_keys {p : Proc} {fd : Int} {buffer size n : Nat} {s t : Kernel}
    (h : readFile p fd buffer size s = .ok (n, t)) : SameKeys s t := by
  unfold readFile at h
  obtain ⟨slot, _, h⟩ := bind_eq_ok.mp h
  obtain ⟨d, _, h⟩ := bind_eq_ok.mp h
  obtain ⟨fcb, _, h⟩ := bind_eq_ok.mp h
  dsimp only at h
  split at h
  · cases h
    exact .refl s
  · obtain ⟨r, _, h⟩ := bind_eq_ok.mp h
    cases h
    exact ⟨rfl, rfl⟩

/-! ## Parts -/

variable {L : Layout}

/-- What a part of the step that handles `ev` from `o` on does to the keyboard buffer. -/
inductive KeyEffect (o : Kernel) (ev : Event) (s t : Kernel) : Prop
  | same : SameKeys s t → KeyEffect o ev s t
  | wrote (ch) : t = writeKeyBuffer ch s → KeyEffect o ev s t
  | took {front} : TakesKey o ev s front → t = (takeKey front s).2 → KeyEffect o ev s t

theorem Part.keyEffect {o : Kernel} {ev : Event} {s t : Kernel} (h : Good s) (hp : Part L o ev s t) :
    KeyEffect o ev s t := by
  obtain ⟨q, lost, hq⟩ := h.sched
  cases hp with
  | tick _ n => exact .same ⟨rfl, rfl⟩
  | writeKey _ ch => exact .wrote ch rfl
  | wakeUp hrun =>
      obtain ⟨t', hrun', hw⟩ := wakeUp_spec hq.queues _
      obtain rfl := Except.ok.inj (hrun'.symm.trans hrun)
      exact .same (.ofFrame hw.frame)
  | yield hrun =>
      obtain ⟨t', q', lost', hrun', -, -, hsw⟩ := yield_spec hq
      obtain rfl := Except.ok.inj (hrun'.symm.trans hrun)
      exact .same (.ofFrame hsw.frame)
  | @sleep _ t w k hm hrun =>
      obtain ⟨t', hrun', -, hsw⟩ := sleep_spec hq hm.notIdle w
      obtain rfl := Except.ok.inj (hrun'.symm.trans hrun)
      exact .same ((SameKeys.ofFrame hsw.frame).trans (.setKont t' _ _))
  | exit hc hk hrun =>
      obtain ⟨t', hrun', hsw⟩ := exit_spec hq hc
      obtain rfl := Except.ok.inj (hrun'.symm.trans hrun)
      have hobs : SameKeys s (s.observe (.exit (s.proc s.current).pid)) := .of_trace rfl rfl (by simp [Obs.isKey])
      exact .same (hobs.trans (.ofFrame hsw.frame))
  | resume _ hc => exact .same (.setKont s _ _)
  | reap hc hat hrun =>
      rcases wait_ok hq hrun with ⟨-, x, ys, zs, hr⟩ | ⟨hf, -⟩
      · exact .same (.of_trace hr.keyBuffer hr.trace (by simp [Obs.isKey]))
      · cases hf
  | fork hc hev hrun =>
      obtain ⟨i, hf, -, -⟩ := fork_spec hq hrun
      exact .same (.of_trace hf.keyBuffer hf.trace (by simp [Obs.isKey]))
  | openFile path hc hev => exact .same (openFile_keys _ path _)
  | closeFile hc hev hrun => exact .same (closeFile_keys hrun)
  | readFile hc hrun hev => exact .same (readFile_keys hrun)
  | readRoot hc hev hrun =>
      obtain ⟨m, _, hrun⟩ := bind_eq_ok.mp hrun
      cases hrun
      exact .same (.setMem s _)
  | takeKey hc htake => exact .took htake rfl
  | setX0 _ v hc => exact .same (.setMem s _)
  | clearUser hc hdst => exact .same (.setMem s _)
  | newFrame _ hc => exact .same (.setMem s _)
  | store hc hev hva hwalk => exact .same (.setMem s _)

/-- The buffer after the start. -/
theorem boot_keys {m : Mem} {t : Kernel} (h : boot L m = .ok t) :
    t.keyBuffer = KeyboardBuffer.initial ∧ keyOps t.trace = [] := by
  obtain ⟨M, s₁, i, s₂, s₃, -, hfs, halloc, hsetup, happend⟩ := boot_ok h
  have ha := allocNewProcess_spec halloc
  obtain ⟨page, M₁, M₂, fd, s₄, size, s₅, -, -, -, hopen, -, -, hread, hclose⟩ := setupUvm_true hsetup
  obtain ⟨_, _, _, _, -, -, rfl⟩ := initFs_ok hfs
  have hopened := openFile_keys i initBin { s₂ with memory := M₂ }
  rw [hopen] at hopened
  have hsetup : SameKeys s₂ s₃ := ⟨(closeFile_keys hclose).keyBuffer.trans ((readFile_keys hread).keyBuffer.trans
    hopened.keyBuffer), (closeFile_keys hclose).ops.trans ((readFile_keys hread).ops.trans hopened.ops)⟩
  have hready : SameKeys s₃ (s₃.setProc i { s₃.proc i with state := .ready }) := ⟨rfl, rfl⟩
  have happended := SameKeys.of_trace (SameButLinks.ofAppendTail happend).keyBuffer (appendTail_trace happend)
    (by simp [Obs.isKey])
  have hs := (hsetup.trans hready).trans happended
  refine ⟨?_, ?_⟩
  · rw [hs.keyBuffer, ha.keyBuffer]
    rfl
  · rw [hs.ops, ha.trace]
    rfl

end ArmOs
