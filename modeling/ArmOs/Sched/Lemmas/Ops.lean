import ArmOs.Lib.Fifo
import ArmOs.Sched.Lemmas.Wake

/-!
# The scheduling functions

The invariant of the scheduler, and what `schedule`, `yield`, `sleep`, `wake_up` and `exit` do in a state
that satisfies it: which lists they leave, whose state and event value they change, and what they keep.
-/

namespace ArmOs

open Lib

/-- What a trace does to `ready_list`. -/
def readyOps (tr : List Obs) : List (QueueOp Proc) :=
  tr.filterMap fun
    | .append .ready i => some (.enq i)
    | .dispatch _ c => some (if c = idle then .empty else .deq c)
    | _ => none

/-- The invariant of the scheduler while a process runs; `q` are the contents of the lists. `yield` does not
put a process with the pid 0 on a list; such a process is `lost`, if it is not the idle process. -/
structure SchedInv (s : Kernel) (q : ListId → List Proc) (lost : Set Proc) : Prop where
  queues : Queues s q lost
  lostReady : ∀ i ∈ lost, i ≠ idle ∧ (s.proc i).state = .ready ∧ (s.proc i).pid = 0
  idlePid : (s.proc idle).pid = 0
  running : ∀ i, (s.proc i).state = .running ↔ i = s.current
  idleState : (s.proc idle).state = .running ∨ (s.proc idle).state = .ready
  ttbr0 : s.ttbr0 = v2p (s.proc s.current).pageMap
  fifo : QueueOp.replay (readyOps s.trace) = some (q .ready)
  noSelf : ∀ p, .dispatch p p ∉ s.trace

/-- The state in which `schedule` is called: no process runs. -/
structure Parked (s : Kernel) (q : ListId → List Proc) (lost : Set Proc) : Prop where
  queues : Queues s q lost
  lostReady : ∀ i ∈ lost, i ≠ idle ∧ (s.proc i).state = .ready ∧ (s.proc i).pid = 0
  idlePid : (s.proc idle).pid = 0
  notRunning : ∀ i, (s.proc i).state ≠ .running
  idleState : (s.proc idle).state = .ready
  fifo : QueueOp.replay (readyOps s.trace) = some (q .ready)
  noSelf : ∀ p, .dispatch p p ∉ s.trace

/-- An observation of the lists, not of a process that ends or of the keyboard. -/
def Obs.isSched : Obs → Prop
  | .append _ _ | .dispatch _ _ => True
  | _ => False

/-- What no scheduling function touches. -/
structure SchedFrame (s t : Kernel) : Prop where
  proc : ∀ i, t.proc i =
    { s.proc i with next := (t.proc i).next, wait := (t.proc i).wait, state := (t.proc i).state }
  rest : t = { s with
    processTable := t.processTable, pc := t.pc, trace := t.trace, ttbr0 := t.ttbr0 }
  unused : ∀ i, (t.proc i).state = .unused ↔ (s.proc i).state = .unused
  trace : ∃ os, t.trace = s.trace ++ os ∧ ∀ o ∈ os, o.isSched

namespace SchedFrame

variable {s t u : Kernel}

theorem refl (s : Kernel) : SchedFrame s s := ⟨fun _ => rfl, rfl, fun _ => Iff.rfl, [], by simp⟩

theorem trans (h : SchedFrame s t) (h' : SchedFrame t u) : SchedFrame s u where
  proc i := by rw [h'.proc i, h.proc i]
  rest := by rw [h'.rest, h.rest]
  unused i := (h'.unused i).trans (h.unused i)
  trace := by
    obtain ⟨os, hos, hall⟩ := h.trace
    obtain ⟨os', hos', hall'⟩ := h'.trace
    refine ⟨os ++ os', by rw [hos', hos, List.append_assoc], ?_⟩
    intro o ho
    exact (List.mem_append.mp ho).elim (hall o) (hall' o)

theorem memory (h : SchedFrame s t) : t.memory = s.memory := by rw [h.rest]
theorem fs (h : SchedFrame s t) : t.fs = s.fs := by rw [h.rest]
theorem pidNum (h : SchedFrame s t) : t.pidNum = s.pidNum := by rw [h.rest]
theorem keyBuffer (h : SchedFrame s t) : t.keyBuffer = s.keyBuffer := by rw [h.rest]
theorem ticks (h : SchedFrame s t) : t.ticks = s.ticks := by rw [h.rest]
theorem kont (h : SchedFrame s t) : t.kont = s.kont := by rw [h.rest]
theorem pid (h : SchedFrame s t) (i : Proc) : (t.proc i).pid = (s.proc i).pid := by rw [h.proc]
theorem context (h : SchedFrame s t) (i : Proc) : (t.proc i).context = (s.proc i).context := by rw [h.proc]
theorem pageMap (h : SchedFrame s t) (i : Proc) : (t.proc i).pageMap = (s.proc i).pageMap := by rw [h.proc]
theorem stack (h : SchedFrame s t) (i : Proc) : (t.proc i).stack = (s.proc i).stack := by rw [h.proc]
theorem file (h : SchedFrame s t) (i : Proc) : (t.proc i).file = (s.proc i).file := by rw [h.proc]
theorem tf (h : SchedFrame s t) (i : Proc) : (t.proc i).tf = (s.proc i).tf := by rw [h.proc]

theorem mem_trace (h : SchedFrame s t) {o : Obs} (ho : ¬o.isSched) : o ∈ t.trace ↔ o ∈ s.trace := by
  obtain ⟨os, hos, hall⟩ := h.trace
  rw [hos, List.mem_append]
  exact ⟨fun h => h.resolve_right fun h' => ho (hall o h'), Or.inl⟩

/-- Changing the links of a process and its list. -/
theorem ofLinks (h : SameButLinks s t) {os : List Obs} (htr : t.trace = s.trace ++ os)
    (hos : ∀ o ∈ os, o.isSched) : SchedFrame s t where
  proc i := by rw [h.proc i]
  rest := by rw [h.rest]
  unused i := by rw [h.state i]
  trace := ⟨os, htr, hos⟩

/-- Changing the state and the event value of a process. -/
theorem setProc (s : Kernel) (i : Proc) (w : Int) (st : ProcState)
    (hst : st = .unused ↔ (s.proc i).state = .unused) :
    SchedFrame s (s.setProc i { s.proc i with state := st, wait := w }) where
  proc j := by
    by_cases hj : j = i
    · subst hj; simp [Kernel.proc]
    · simp [Kernel.proc, s.setProc_ne _ _ _ hj]
  rest := rfl
  unused j := by
    by_cases hj : j = i
    · subst hj; simp [Kernel.proc, hst]
    · simp [Kernel.proc, s.setProc_ne _ _ _ hj]
  trace := ⟨[], by simp⟩

end SchedFrame

/-- The result `t` of switching away from the process that ran in `s`. `state` and `wait` are the states and
event values just before the next process was dispatchTo. -/
structure Switched (s t : Kernel) (q : ListId → List Proc) (lost : Set Proc) (state : Proc → ProcState)
    (wait : Proc → Int) : Prop where
  inv : SchedInv t q lost
  frame : SchedFrame s t
  state : ∀ i, (t.proc i).state = if i = t.current then .running else state i
  wait : ∀ i, (t.proc i).wait = wait i

theorem readyOps_append (tr tr' : List Obs) : readyOps (tr ++ tr') = readyOps tr ++ readyOps tr' := by
  simp [readyOps]

namespace SchedInv

variable {s : Kernel} {q : ListId → List Proc} {lost : Set Proc}

theorem current_state (h : SchedInv s q lost) : (s.proc s.current).state = .running :=
  (h.running s.current).mpr rfl

theorem current_not_mem (h : SchedInv s q lost) (l : ListId) : s.current ∉ q l := by
  refine h.queues.not_mem_of_state ?_
  rw [h.current_state]
  cases l <;> decide

theorem idle_ready (h : SchedInv s q lost) (hc : s.current ≠ idle) : (s.proc idle).state = .ready :=
  h.idleState.resolve_left fun hr => hc ((h.running idle).mp hr).symm

theorem current_not_lost (h : SchedInv s q lost) : s.current ∉ lost := fun hl => by
  have := (h.lostReady _ hl).2.1
  rw [h.current_state] at this
  cases this

end SchedInv

/-! ## `schedule` -/

/-- The end of `schedule`, once the next process is chosen. -/
def dispatchTo (prev c : Proc) (s : Kernel) : Kernel :=
  let s := s.setProc c { s.proc c with state := .running }
  switchProcess prev c { s with pc := { s.pc with currentProcess := c } }

theorem dispatchTo_proc (prev c i : Proc) (s : Kernel) : (dispatchTo prev c s).proc i =
    if i = c then { s.proc c with state := .running } else s.proc i := by
  by_cases hi : i = c
  · subst hi; simp [dispatchTo, switchProcess, Kernel.observe, Kernel.proc]
  · simp [dispatchTo, switchProcess, Kernel.observe, Kernel.proc, s.setProc_ne _ _ _ hi, hi]

/-- Dispatching the process `c` that was taken off the lists. -/
theorem dispatchTo_spec {s : Kernel} {q : ListId → List Proc} {lost : Set Proc} {c : Proc}
    (hq : Queues s q (insert c lost))
    (hlost : ∀ i ∈ lost, i ≠ idle ∧ (s.proc i).state = .ready ∧ (s.proc i).pid = 0)
    (hpid : (s.proc idle).pid = 0) (hcl : c ∉ lost) (hrun : ∀ i, (s.proc i).state ≠ .running) (hidle : (s.proc idle).state = .ready)
    (hc : (s.proc c).state ≠ .unused) (hne : c ≠ s.current)
    (hfifo : QueueOp.replay (readyOps (s.trace ++ [.dispatch s.current c])) = some (q .ready))
    (hself : ∀ p, .dispatch p p ∉ s.trace) :
    Switched s (dispatchTo s.current c s) q lost (fun i => (s.proc i).state) (fun i => (s.proc i).wait) := by
  have hproc := fun i => dispatchTo_proc s.current c i s
  have hrel : ∀ l : ListId, ProcState.running ≠ l.state := fun l => by cases l <;> decide
  refine ⟨⟨?_, ?_, ?_, ?_, ?_, ?_, hfifo, ?_⟩, ⟨?_, rfl, ?_, [_], rfl, by simp [Obs.isSched]⟩, ?_, ?_⟩
  · have h := (hq.setProc_out (Set.mem_insert c lost) { s.proc c with state := .running }).release
      (.inr (by simpa using hrel))
    exact h.congr (fun l => by cases l <;> rfl) (fun _ => rfl) fun _ => rfl
  · intro i hi
    have hic : i ≠ c := by rintro rfl; exact hcl hi
    rw [hproc, if_neg hic]
    exact hlost i hi
  · rw [hproc]
    by_cases hi : idle = c
    · subst hi; simp [hpid]
    · simp [hi, hpid]
  · intro i
    rw [hproc]
    show _ ↔ i = c
    by_cases hi : i = c <;> simp [hi, hrun]
  · rw [hproc]
    by_cases hi : idle = c <;> simp [hi, hidle]
  · rw [hproc]
    show v2p ((s.setProc c { s.proc c with state := .running }).proc c).pageMap = v2p (if c = c then _ else _ : Process Proc).pageMap
    simp
  · intro p hp
    rcases List.mem_append.mp hp with hp | hp
    · exact hself p hp
    · simp only [List.mem_singleton, Obs.dispatch.injEq] at hp
      exact hne (hp.2.symm.trans hp.1)
  · intro i
    rw [hproc]
    by_cases hi : i = c
    · subst hi; simp
    · simp [hi]
  · intro i
    rw [hproc]
    by_cases hi : i = c <;> simp [hi, hc]
  · intro i
    rw [hproc]
    show _ = if i = c then _ else _
    by_cases hi : i = c <;> simp [hi]
  · intro i
    rw [hproc]
    by_cases hi : i = c <;> simp [hi]

theorem headD_ne {xs : List Proc} {c : Proc} (hc : c ≠ idle) (hxs : c ∉ xs) : xs.headD idle ≠ c := by
  cases xs with
  | nil => exact hc.symm
  | cons x xs =>
      rintro rfl
      simp at hxs

theorem schedule_spec {s : Kernel} {q : ListId → List Proc} {lost : Set Proc} (h : Parked s q lost)
    (hne : (q .ready).headD idle ≠ s.current) :
    ∃ t, schedule s = .ok t ∧ t.current = (q .ready).headD idle ∧
      Switched s t (Function.update q .ready (q .ready).tail) lost (fun i => (s.proc i).state)
        (fun i => (s.proc i).wait) := by
  have hidle := h.idleState
  have hfifo := h.fifo
  cases hq : q .ready with
  | nil =>
      have hempty : isListEmpty s.pc.readyList = true :=
        (h.queues.represents .ready).isListEmpty_iff.mpr hq
      rw [hq] at hne hfifo
      have hqs : Function.update q .ready [] = q := by rw [← hq, Function.update_eq_self]
      refine ⟨dispatchTo s.current idle s, ?_, rfl, ?_⟩
      · simp only [schedule, hempty, if_true]
        rfl
      · rw [List.tail_nil, hqs]
        refine dispatchTo_spec (h.queues.take (.inl rfl)) h.lostReady h.idlePid
          (fun hl => (h.lostReady _ hl).1 rfl) h.notRunning hidle (by simp [hidle]) hne ?_ h.noSelf
        rw [readyOps_append, show readyOps [.dispatch s.current idle] = [.empty] by simp [readyOps],
          QueueOp.replay_snoc hfifo, hq]
        rfl
  | cons x xs =>
      have hempty : isListEmpty s.pc.readyList = false :=
        (h.queues.represents .ready).isListEmpty_eq.trans (by rw [hq]; rfl)
      rw [hq] at hne hfifo
      have hx : x ≠ idle := ((h.queues.mem .ready x).mp (by simp [hq])).2.1
      have hxs : (s.proc x).state = .ready := ((h.queues.mem .ready x).mp (by simp [hq])).2.2
      obtain ⟨list, hrun, hqs⟩ := h.queues.removeHead hq
      have hxl : x ∉ lost := ((h.queues.mem .ready x).mp (by simp [hq])).1
      have hspec := dispatchTo_spec hqs h.lostReady h.idlePid hxl h.notRunning hidle (hxs ▸ by decide) hne (by
        rw [readyOps_append, show readyOps [.dispatch s.current x] = [.deq x] by simp [readyOps, hx],
          QueueOp.replay_snoc hfifo]
        simp [QueueOp.step]) h.noSelf
      refine ⟨_, ?_, rfl, ⟨hspec.inv, ?_, hspec.state, hspec.wait⟩⟩
      · simp only [schedule, hempty, hrun, ok_bind]
        rfl
      · exact (show SchedFrame s { s with pc := { s.pc with readyList := list } } from
          ⟨fun _ => rfl, rfl, fun _ => Iff.rfl, [], by simp⟩).trans hspec.frame

/-! ## `yield` and `sleep` -/

/-- The state after the current process has left its place and is on the list `l`. -/
theorem SchedInv.park {s : Kernel} {q : ListId → List Proc} {lost : Set Proc} (h : SchedInv s q lost)
    (hc : s.current ≠ idle) (l : ListId) (w : Int) :
    ∃ t, (s.setProc s.current { s.proc s.current with state := l.state, wait := w }).appendTail l
        s.current = .ok t ∧
      Parked t (Function.update q l (q l ++ [s.current])) lost ∧ SchedFrame s t ∧ t.current = s.current ∧
      t.ttbr0 = s.ttbr0 ∧
      (∀ i, (t.proc i).state = if i = s.current then l.state else (s.proc i).state) ∧
      ∀ i, (t.proc i).wait = if i = s.current then w else (s.proc i).wait := by
  have hcur := h.current_state
  have hl : ∀ l' : ListId, (s.proc s.current).state ≠ l'.state := by
    rw [hcur]
    exact fun l' => by cases l' <;> decide
  have hq := (h.queues.take (.inr hl)).setProc_out (Set.mem_insert _ _)
    { s.proc s.current with state := l.state, wait := w }
  obtain ⟨t, hrun, hqt, hlinks, htr⟩ := hq.appendTail (l := l) h.current_not_lost hc (by simp [Kernel.proc])
  have hframe := (SchedFrame.setProc s s.current w l.state (by
    rw [hcur]
    cases l <;> decide)).trans (.ofLinks hlinks htr (by simp [Obs.isSched]))
  have hstate : ∀ i, (t.proc i).state = if i = s.current then l.state else (s.proc i).state := by
    intro i
    rw [hlinks.state]
    by_cases hi : i = s.current
    · subst hi; simp [Kernel.proc]
    · simp [Kernel.proc, s.setProc_ne _ _ _ hi, hi]
  refine ⟨t, hrun, ⟨hqt, ?_, ?_, ?_, ?_, ?_, ?_⟩, hframe, hlinks.current, hlinks.ttbr0, hstate, ?_⟩
  · intro i hi
    have hic : i ≠ s.current := by rintro rfl; exact h.current_not_lost hi
    rw [hstate, if_neg hic, hframe.pid]
    exact h.lostReady i hi
  · rw [hframe.pid]
    exact h.idlePid
  · intro i
    rw [hstate]
    by_cases hi : i = s.current
    · simp only [hi, if_true]
      cases l <;> decide
    · simp [hi, h.running]
  · rw [hstate, if_neg hc.symm, h.idle_ready hc]
  · rw [htr, readyOps_append]
    cases l with
    | ready =>
        rw [show readyOps [.append .ready s.current] = [.enq s.current] by rfl]
        simpa [QueueOp.step] using QueueOp.replay_snoc h.fifo (.enq s.current)
    | wait => simpa [readyOps] using h.fifo
    | kill => simpa [readyOps] using h.fifo
  · intro p hp
    rw [htr] at hp
    exact h.noSelf p (by simpa using hp)
  · intro i
    rw [hlinks.wait]
    by_cases hi : i = s.current
    · subst hi; simp [Kernel.proc]
    · simp [Kernel.proc, s.setProc_ne _ _ _ hi, hi]

/-- `Switched`, when the current process was parked first. -/
theorem Switched.of_park {s t u : Kernel} {q : ListId → List Proc} {lost : Set Proc}
    {st st' : Proc → ProcState} {wt wt' : Proc → Int} (hframe : SchedFrame s t) (hst : ∀ i, (t.proc i).state = st' i)
    (hwt : ∀ i, (t.proc i).wait = wt' i)
    (h : Switched t u q lost (fun i => (t.proc i).state) (fun i => (t.proc i).wait))
    (he : st = st') (he' : wt = wt') : Switched s u q lost st wt := by
  subst he he'
  exact ⟨h.inv, hframe.trans h.frame, fun i => by rw [h.state, hst], fun i => by rw [h.wait, hwt]⟩

theorem sleep_spec {s : Kernel} {q : ListId → List Proc} {lost : Set Proc} (h : SchedInv s q lost)
    (hc : s.current ≠ idle) (w : Int) :
    ∃ t, sleep w s = .ok t ∧ t.current = (q .ready).headD idle ∧
      Switched s t (Function.update (Function.update q .wait (q .wait ++ [s.current])) .ready
          (q .ready).tail) lost
        (fun i => if i = s.current then .sleep else (s.proc i).state)
        (fun i => if i = s.current then w else (s.proc i).wait) := by
  obtain ⟨t, hrun, hparked, hframe, hcur, _, hst, hwt⟩ := h.park hc .wait w
  have hready : Function.update q .wait (q .wait ++ [s.current]) .ready = q .ready := by simp
  obtain ⟨u, hrun', hu, hsw⟩ := schedule_spec hparked (by
    rw [hready, hcur]
    exact headD_ne hc (h.current_not_mem .ready))
  rw [hready] at hu hsw
  refine ⟨u, ?_, hu, hsw.of_park hframe hst hwt rfl rfl⟩
  have hrun₁ : (s.setProc s.current { s.proc s.current with state := .sleep, wait := w }).appendTail
    .wait s.current = .ok t := hrun
  simp only [sleep, hrun₁, ok_bind, hrun']

/-- A process that goes on no list: the idle process, or one with the pid 0. -/
theorem SchedInv.parkNowhere {s : Kernel} {q : ListId → List Proc} {lost : Set Proc} (h : SchedInv s q lost)
    (hpid : (s.proc s.current).pid = 0) :
    ∃ lost', Parked (s.setProc s.current { s.proc s.current with state := .ready }) q lost' := by
  have hproc : ∀ i, (s.setProc s.current { s.proc s.current with state := .ready }).proc i =
      { s.proc i with state := if i = s.current then .ready else (s.proc i).state } := by
    intro i
    by_cases hi : i = s.current
    · subst hi; simp [Kernel.proc]
    · simp [Kernel.proc, s.setProc_ne _ _ _ hi, hi]
  have hnot : ∀ i, ((s.setProc s.current { s.proc s.current with state := .ready }).proc i).state ≠
      .running := by
    intro i
    rw [hproc]
    by_cases hi : i = s.current <;> simp [hi, h.running]
  have hlost : ∀ i ∈ lost, i ≠ idle ∧
      ((s.setProc s.current { s.proc s.current with state := .ready }).proc i).state = .ready ∧
      ((s.setProc s.current { s.proc s.current with state := .ready }).proc i).pid = 0 := by
    intro i hi
    have hic : i ≠ s.current := by rintro rfl; exact h.current_not_lost hi
    rw [hproc, if_neg hic]
    exact h.lostReady i hi
  have hidlePid : ((s.setProc s.current { s.proc s.current with state := .ready }).proc idle).pid = 0 := by
    rw [hproc]
    exact h.idlePid
  have hl : ∀ l : ListId, (s.proc s.current).state ≠ l.state := by
    rw [h.current_state]
    exact fun l => by cases l <;> decide
  have htake := (h.queues.take (.inr hl)).setProc_out (Set.mem_insert _ _)
    { s.proc s.current with state := .ready }
  by_cases hc : s.current = idle
  · refine ⟨lost, htake.release (.inl hc), hlost, hidlePid, hnot, ?_, h.fifo, h.noSelf⟩
    rw [hproc]
    simp [hc]
  · refine ⟨insert s.current lost, htake, ?_, hidlePid, hnot, ?_, h.fifo, h.noSelf⟩
    · intro i hi
      rcases Set.mem_insert_iff.mp hi with rfl | hi
      · rw [hproc]
        exact ⟨hc, by simp, hpid⟩
      · exact hlost i hi
    · rw [hproc]
      simp [h.idle_ready hc]

/-- With a process on `ready_list`, the first one is dispatched, and the current one follows the others. -/
theorem yield_cons {s : Kernel} {q : ListId → List Proc} {lost : Set Proc} {x : Proc} {xs : List Proc}
    (h : SchedInv s q lost) (hq : q .ready = x :: xs) :
    ∃ t zs lost', yield s = .ok t ∧ t.current = x ∧
      Switched s t (Function.update q .ready (xs ++ zs)) lost'
        (fun i => if i = s.current then .ready else (s.proc i).state) (fun i => (s.proc i).wait) := by
  have hempty : isListEmpty s.pc.readyList = false :=
    (h.queues.represents .ready).isListEmpty_eq.trans (by rw [hq]; rfl)
  have hx : x ≠ s.current := by
    have := h.current_not_mem .ready
    rw [hq] at this
    rintro rfl
    simp at this
  by_cases hpid : (s.proc s.current).pid = 0
  · -- the process goes on no list
    obtain ⟨lost', hparked⟩ := h.parkNowhere hpid
    have hproc : ∀ i, (s.setProc s.current { s.proc s.current with state := .ready }).proc i =
        { s.proc i with state := if i = s.current then .ready else (s.proc i).state } := by
      intro i
      by_cases hi : i = s.current
      · subst hi; simp [Kernel.proc]
      · simp [Kernel.proc, s.setProc_ne _ _ _ hi, hi]
    have hframe : SchedFrame s (s.setProc s.current { s.proc s.current with state := .ready }) :=
      .setProc s s.current (s.proc s.current).wait .ready (by simp [h.current_state])
    obtain ⟨u, hrun, hu, hsw⟩ := schedule_spec hparked (by rw [hq]; exact hx)
    rw [hq] at hu hsw
    have hrest : xs ++ [] = (x :: xs).tail := List.append_nil xs
    refine ⟨u, [], lost', ?_, hu, hrest ▸ hsw.of_park hframe (fun i => by rw [hproc]) (fun i => by rw [hproc]) rfl rfl⟩
    have hp : ((s.setProc s.current { s.proc s.current with state := .ready }).proc s.current).pid = 0 := by
      rw [hproc]
      exact hpid
    simp only [yield, hempty, hp]
    exact hrun
  · have hc : s.current ≠ idle := fun hc => hpid (by rw [hc]; exact h.idlePid)
    obtain ⟨t, hrun, hparked, hframe, hcur, _, hst, hwt⟩ := h.park hc .ready (s.proc s.current).wait
    have hready : Function.update q .ready (q .ready ++ [s.current]) .ready = x :: xs ++ [s.current] := by simp [hq]
    obtain ⟨u, hrun', hu, hsw⟩ := schedule_spec hparked (by rw [hready, hcur]; exact hx)
    rw [hready, Function.update_idem] at hsw
    rw [hready] at hu
    refine ⟨u, [s.current], lost, ?_, hu, hsw.of_park hframe hst hwt rfl ?_⟩
    · have hrun₁ : (s.setProc s.current { s.proc s.current with state := .ready }).appendTail .ready s.current = .ok t := hrun
      simp only [yield, hempty, hrun₁, ok_bind]
      simpa [Kernel.proc, hpid] using hrun'
    · funext i
      by_cases hi : i = s.current <;> simp [hi]

theorem yield_nil {s : Kernel} {q : ListId → List Proc} {lost : Set Proc} (h : SchedInv s q lost) (hq : q .ready = []) :
    yield s = .ok s := by
  have hempty : isListEmpty s.pc.readyList = true := (h.queues.represents .ready).isListEmpty_iff.mpr hq
  simp only [yield, hempty, if_true]
  rfl

theorem yield_spec {s : Kernel} {q : ListId → List Proc} {lost : Set Proc} (h : SchedInv s q lost) :
    ∃ t q' lost', yield s = .ok t ∧ q' .wait = q .wait ∧ q' .kill = q .kill ∧
      Switched s t q' lost' (fun i => if i = s.current then .ready else (s.proc i).state)
        (fun i => (s.proc i).wait) := by
  cases hq : q .ready with
  | nil =>
      refine ⟨s, q, lost, yield_nil h hq, rfl, rfl, h, .refl s, ?_, fun _ => rfl⟩
      intro i
      by_cases hi : i = s.current
      · simp [hi, h.current_state]
      · simp [hi]
  | cons x xs =>
      obtain ⟨t, zs, lost', hrun, -, hsw⟩ := yield_cons h hq
      exact ⟨t, _, lost', hrun, by simp, by simp, hsw⟩

/-! ## `wake_up` -/

/-- The lists after waking the processes among `zs` with the event value `w`; those of `ys` stay. -/
def wokenFrom (s : Kernel) (q : ListId → List Proc) (w : Int) (ys zs : List Proc) : ListId → List Proc
  | .ready => q .ready ++ zs.filter fun i => (s.proc i).wait = w
  | .wait => ys ++ zs.filter fun i => (s.proc i).wait ≠ w
  | .kill => q .kill

/-- The lists after `wake_up(w)`. -/
def woken (s : Kernel) (q : ListId → List Proc) (w : Int) : ListId → List Proc :=
  wokenFrom s q w [] (q .wait)

/-- What waking the processes among `zs` with the event value `w` does. -/
structure Woken (s t : Kernel) (q : ListId → List Proc) (out : Set Proc) (w : Int) (ys zs : List Proc) :
    Prop where
  queues : Queues t (wokenFrom s q w ys zs) out
  frame : SchedFrame s t
  current : t.current = s.current
  ttbr0 : t.ttbr0 = s.ttbr0
  state : ∀ i, (t.proc i).state =
    if i ∈ zs ∧ (s.proc i).wait = w then .ready else (s.proc i).state
  wait : ∀ i, (t.proc i).wait = (s.proc i).wait
  trace : t.trace = s.trace ++ (zs.filter fun i => (s.proc i).wait = w).map (.append .ready)

namespace Partitioned

variable {w : Int} {q : ListId → List Proc} {out : Set Proc} {rs ws : List Proc}

theorem state (h : Partitioned s t w rs [] ws) (i : Proc) :
    (t.proc i).state = if i ∈ ws ∧ (s.proc i).wait = w then .ready else (s.proc i).state := by
  split
  · rename_i hi
    rw [h.woken i hi.1 hi.2]
  · rename_i hi
    rw [h.others i hi]

theorem wait_eq (h : Partitioned s t w rs [] ws) (i : Proc) : (t.proc i).wait = (s.proc i).wait := by
  by_cases hi : i ∈ ws ∧ (s.proc i).wait = w
  · rw [h.woken i hi.1 hi.2]
  · rw [h.others i hi]

theorem schedFrame (h : Partitioned s t w rs [] ws) (hq : ∀ i ∈ ws, (s.proc i).state = .sleep) : SchedFrame s t where
  proc i := by
    by_cases hi : i ∈ ws ∧ (s.proc i).wait = w
    · rw [h.woken i hi.1 hi.2]
    · rw [h.others i hi]
  rest := by rw [h.rest]
  unused i := by
    rw [h.state]
    split
    · rename_i hi
      simp [hq i hi.1]
    · rfl
  trace := by
    refine ⟨_, by rw [h.rest], fun o ho => ?_⟩
    obtain ⟨i, -, rfl⟩ := List.mem_map.mp ho
    trivial

/-- The third list and the states agree with the other two. -/
theorem queues (h : Partitioned s t w (q .ready) [] (q .wait)) (hq : Queues s q out) :
    Queues t (wokenFrom s q w [] (q .wait)) out where
  represents l := by
    cases l with
    | ready => exact h.ready
    | wait => exact h.wait
    | kill =>
        have hkill : t.pc.list .kill = s.pc.list .kill := by
          rw [h.rest]
          rfl
        rw [hkill]
        refine (hq.represents .kill).congr fun i hi => ?_
        have hready : i ∉ q .ready := fun hi' => nomatch hq.disjoint hi hi'
        have hwait : i ∉ q .wait := fun hi' => nomatch hq.disjoint hi hi'
        exact congrArg Process.next (h.unlisted i hready List.not_mem_nil hwait)
  mem l i := by
    have hsleep := hq.mem .wait i
    have hready := hq.mem .ready i
    have hkill := hq.mem .kill i
    rw [h.state]
    by_cases hi : i ∈ q .wait ∧ (s.proc i).wait = w
    · obtain ⟨hout, hidle, hstate⟩ := hsleep.mp hi.1
      rw [if_pos hi]
      cases l with
      | ready => simp [wokenFrom, ListId.state, hi, hout, hidle]
      | wait => simp [wokenFrom, ListId.state, hi]
      | kill => simp [wokenFrom, ListId.state, hkill, hstate]
    · rw [if_neg hi]
      cases l with
      | ready => simp [wokenFrom, hready, hi]
      | wait =>
          rw [← hsleep]
          simpa [wokenFrom] using fun hmem hw => hi ⟨hmem, hw⟩
      | kill => exact hkill

end Partitioned

theorem wakeUp_spec {s : Kernel} {q : ListId → List Proc} {out : Set Proc} (h : Queues s q out) (w : Int) :
    ∃ t, wakeUp w s = .ok t ∧ Woken s t q out w [] (q .wait) := by
  have hdisjoint : (q .ready).Disjoint (q .wait) := fun i hi hi' => nomatch h.disjoint hi hi'
  obtain ⟨t, hrun, hp⟩ := wakeUp_partitions (h.represents .ready) (h.represents .wait) hdisjoint
  refine ⟨t, hrun, hp.queues h, hp.schedFrame fun i hi => ((h.mem .wait i).mp hi).2.2, ?_, ?_, hp.state, hp.wait_eq, ?_⟩
  · rw [hp.rest]
  · rw [hp.rest]
  · rw [hp.rest]

namespace Woken

variable {s t : Kernel} {q : ListId → List Proc} {out : Set Proc} {w : Int}

theorem fifo (h : Woken s t q out w [] (q .wait))
    (hf : QueueOp.replay (readyOps s.trace) = some (q .ready)) :
    QueueOp.replay (readyOps t.trace) = some (woken s q w .ready) := by
  have hops : ∀ xs : List Proc, readyOps (xs.map (.append .ready)) = xs.map .enq := by
    intro xs
    simp [readyOps, List.filterMap_map]
  rw [h.trace, readyOps_append, hops]
  exact QueueOp.replay_enqs hf _

theorem noSelf (h : Woken s t q out w [] (q .wait)) (hs : ∀ p, .dispatch p p ∉ s.trace) (p : Proc) :
    .dispatch p p ∉ t.trace := by
  rw [h.trace]
  simp [hs p]

/-- Only sleeping processes change, and they become ready. -/
theorem state_eq (h : Woken s t q out w [] (q .wait)) (hq : Queues s q out) (i : Proc)
    (hi : (s.proc i).state ≠ .sleep) : (t.proc i).state = (s.proc i).state := by
  rw [h.state, if_neg]
  rintro ⟨hm, _⟩
  exact hi ((hq.mem .wait i).mp hm).2.2

theorem lostReady (h : Woken s t q out w [] (q .wait)) (hq : Queues s q out)
    (hl : ∀ i ∈ out, i ≠ idle ∧ (s.proc i).state = .ready ∧ (s.proc i).pid = 0) :
    ∀ i ∈ out, i ≠ idle ∧ (t.proc i).state = .ready ∧ (t.proc i).pid = 0 := by
  intro i hi
  rw [h.state_eq hq i (by simp [(hl i hi).2.1]), h.frame.pid]
  exact hl i hi

theorem inv (h : Woken s t q out w [] (q .wait)) (hs : SchedInv s q out) :
    SchedInv t (woken s q w) out where
  queues := h.queues
  lostReady := h.lostReady hs.queues hs.lostReady
  idlePid := by rw [h.frame.pid]; exact hs.idlePid
  running i := by
    rw [h.current, ← hs.running i]
    by_cases hi : (s.proc i).state = .sleep
    · rw [h.state]
      split <;> simp [hi]
    · rw [h.state_eq hs.queues i hi]
  idleState := by
    rw [h.state_eq hs.queues]
    · exact hs.idleState
    · rcases hs.idleState with h | h <;> simp [h]
  ttbr0 := by rw [h.ttbr0, h.current, h.frame.pageMap, hs.ttbr0]
  fifo := h.fifo hs.fifo
  noSelf := h.noSelf hs.noSelf

theorem parked (h : Woken s t q out w [] (q .wait)) (hs : Parked s q out) : Parked t (woken s q w) out where
  queues := h.queues
  lostReady := h.lostReady hs.queues hs.lostReady
  idlePid := by rw [h.frame.pid]; exact hs.idlePid
  notRunning i := by
    rw [h.state]
    split
    · simp
    · exact hs.notRunning i
  idleState := by
    rw [h.state_eq hs.queues _ (by simp [hs.idleState])]
    exact hs.idleState
  fifo := h.fifo hs.fifo
  noSelf := h.noSelf hs.noSelf

end Woken

/-! ## `exit` -/

/-- The lists after `exit`. -/
def exited (s : Kernel) (q : ListId → List Proc) : ListId → List Proc
  | .ready => (woken s q (-3) .ready).tail
  | .wait => woken s q (-3) .wait
  | .kill => q .kill ++ [s.current]

theorem SchedInv.observe {s : Kernel} {q : ListId → List Proc} {lost : Set Proc} (h : SchedInv s q lost)
    {o : Obs} (ho : ¬o.isSched) : SchedInv (s.observe o) q lost where
  queues := h.queues.congr (fun _ => rfl) (fun _ => rfl) fun _ => rfl
  lostReady := h.lostReady
  idlePid := h.idlePid
  running := h.running
  idleState := h.idleState
  ttbr0 := h.ttbr0
  fifo := by
    have : readyOps [o] = [] := by cases o <;> first | rfl | exact absurd trivial ho
    simpa only [Kernel.observe, readyOps_append, this, List.append_nil] using h.fifo
  noSelf p hp := by
    rcases List.mem_append.mp hp with hp | hp
    · exact h.noSelf p hp
    · obtain rfl := List.mem_singleton.mp hp
      exact ho trivial

/-- `exit` after its first observation. -/
theorem kill_spec {s : Kernel} {q : ListId → List Proc} {lost : Set Proc} (h : SchedInv s q lost)
    (hc : s.current ≠ idle) (w : Int) :
    ∃ t, ((s.setProc s.current { s.proc s.current with state := .killed, wait := w }).appendTail .kill
        s.current >>= fun s => wakeUp (-3) s >>= schedule) = .ok t ∧
      t.current = (woken s q (-3) .ready).headD idle ∧ Switched s t (exited s q) lost
        (fun i => if i = s.current then .killed
          else if i ∈ q .wait ∧ (s.proc i).wait = -3 then .ready else (s.proc i).state)
        (fun i => if i = s.current then w else (s.proc i).wait) := by
  obtain ⟨t, hrun, hparked, hframe, hcur, _, hst, hwt⟩ := h.park hc .kill w
  obtain ⟨u, hrun', hwoken⟩ := wakeUp_spec hparked.queues (-3)
  have hstate : ∀ i, (u.proc i).state = if i = s.current then .killed
      else if i ∈ q .wait ∧ (s.proc i).wait = -3 then .ready else (s.proc i).state := by
    intro i
    rw [hwoken.state, hst, hwt]
    by_cases hi : i = s.current
    · subst hi
      simp [h.current_not_mem .wait, ListId.state]
    · simp [hi]
  have hwait : ∀ i, (u.proc i).wait = if i = s.current then w else (s.proc i).wait := by
    intro i
    rw [hwoken.wait, hwt]
  -- the process that exits does not sleep, so the sleepers are the old ones
  have hfilter : ∀ p : Int → Bool, (q .wait).filter (fun i => p (t.proc i).wait) =
      (q .wait).filter fun i => p (s.proc i).wait := by
    intro p
    apply List.filter_congr
    intro i hi
    have : i ≠ s.current := by rintro rfl; exact h.current_not_mem .wait hi
    rw [hwt, if_neg this]
  have hready : woken t (Function.update q .kill (q .kill ++ [s.current])) (-3) .ready = woken s q (-3) .ready := by
    simp [woken, wokenFrom, hfilter fun x => x = -3]
  have hwoken_eq : Function.update (woken t (Function.update q .kill (q .kill ++ [s.current])) (-3))
      .ready (woken s q (-3) .ready).tail = exited s q := by
    funext l
    cases l with
    | ready => simp [exited]
    | wait => simp [exited, woken, wokenFrom, hfilter fun x => !decide (x = -3)]
    | kill => simp [exited, woken, wokenFrom]
  obtain ⟨v, hrun'', hv, hsw⟩ := schedule_spec (hwoken.parked hparked) (by
    rw [hwoken.current, hcur]
    exact headD_ne hc (hwoken.queues.not_mem_of_state (l := .ready) (by rw [hstate]; simp [ListId.state])))
  rw [hready] at hv hsw
  rw [hwoken_eq] at hsw
  refine ⟨v, ?_, hv, hsw.of_park (hframe.trans hwoken.frame) hstate hwait rfl rfl⟩
  have hrun₁ : (s.setProc s.current { s.proc s.current with state := .killed, wait := w }).appendTail
    .kill s.current = .ok t := hrun
  simp only [hrun₁, ok_bind, hrun', hrun'']

theorem exit_spec {s : Kernel} {q : ListId → List Proc} {lost : Set Proc} (h : SchedInv s q lost)
    (hc : s.current ≠ idle) :
    ∃ t, exit s = .ok t ∧
      Switched (s.observe (.exit (s.proc s.current).pid)) t (exited s q) lost
        (fun i => if i = s.current then .killed
          else if i ∈ q .wait ∧ (s.proc i).wait = -3 then .ready else (s.proc i).state)
        (fun i => if i = s.current then (s.proc s.current).pid else (s.proc i).wait) := by
  obtain ⟨t, hrun, -, hsw⟩ := kill_spec (h.observe (o := .exit (s.proc s.current).pid) id) hc (s.proc s.current).pid
  exact ⟨t, hrun, hsw⟩

/-- The first process of those that were ready and those that waited for an exit runs next. -/
theorem exit_current {s t : Kernel} {q : ListId → List Proc} {lost : Set Proc} (h : SchedInv s q lost)
    (hc : s.current ≠ idle) (hrun : exit s = .ok t) : t.current = (woken s q (-3) .ready).headD idle := by
  obtain ⟨t', hrun', hcur, -⟩ := kill_spec (h.observe (o := .exit (s.proc s.current).pid) id) hc (s.proc s.current).pid
  obtain rfl : t' = t := Except.ok.inj (hrun'.symm.trans hrun)
  exact hcur

end ArmOs
