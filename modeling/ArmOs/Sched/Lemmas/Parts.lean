import Mathlib.Logic.Relation
import ArmOs.Sched.Lemmas.Procs

/-!
# The parts of a step

Every step of the kernel is a sequence of few kinds of parts. A property that all parts keep is kept by
every step, and so holds in every state of a run; `Step.preserves` and `Run.preserves` say that once.
-/

namespace ArmOs

open Lib

variable {L : Layout}

/-- The processes and the lists are in order. -/
structure Good (s : Kernel) : Prop where
  sched : ∃ q lost, SchedInv s q lost
  procs : ProcInv s

/-- Process `i` may go to sleep on `w` in the place `k`. -/
structure MaySleep (s : Kernel) (w : Int) (k : Kont) : Prop where
  notIdle : s.current ≠ idle
  kont : s.kont s.current = .ret
  on : k.On (s.proc s.current).tf
  wait : ∀ tf p, k = .wait tf p → w = -3 ∧ ∀ j, (s.proc j).state = .killed → (s.proc j).pid ≠ p

/-- The pid of a process that goes on in `wait`. -/
def Kont.waitedPid : Kont → Option Int
  | .wait _ pid => some pid
  | _ => none

theorem Kont.waitedPid_eq_some {k : Kont} {pid : Int} : k.waitedPid = some pid ↔ ∃ tf, k = .wait tf pid := by
  cases k <;> simp [Kont.waitedPid]

/-- In the step that handles `ev` from `o` on, `s` is the state in which `wait(pid)` looks for the process. -/
def AtWait (o : Kernel) (ev : Event) (pid : Int) (s : Kernel) : Prop :=
  (ev = .svc (.wait pid) ∧ s = o) ∨
    (ev = .resume ∧ (∃ tf, o.kont o.current = .wait tf pid) ∧ s = o.setKont o.current .ret)

/-- In the step that handles `ev` from `o` on, `s` is the state in which `read_key_buffer` takes the character at
`front`: the read index, if the process did not sleep, or else the one it took before. -/
def TakesKey (o : Kernel) (ev : Event) (s : Kernel) (front : Nat) : Prop :=
  (front = s.keyBuffer.front ∧ front ≠ s.keyBuffer.end) ∨
    (ev = .resume ∧ (∃ tf, o.kont o.current = .readKeyBuffer tf front) ∧ s = o.setKont o.current .ret)

/-- The parts of the step that handles `ev` from the state `o` on. -/
inductive Part (L : Layout) (o : Kernel) (ev : Event) : Kernel → Kernel → Prop
  | tick (s n) : Part L o ev s { s with ticks := n }
  | writeKey (s ch) : ev = .uart (some ch) → Part L o ev s (writeKeyBuffer ch s)
  | wakeUp {s t w} : wakeUp w s = .ok t → Part L o ev s t
  | yield {s t} : yield s = .ok t → Part L o ev s t
  | sleep {s t w k} : MaySleep s w k → sleep w s = .ok t → Part L o ev s (t.setKont s.current k)
  | exit {s t} : s.current ≠ idle → s.kont s.current = .ret → exit s = .ok t → Part L o ev s t
  | resume (s) : s.current ≠ idle → ev = .resume → Part L o ev s (s.setKont s.current .ret)
  | reap {s t tf pid} : s.current ≠ idle → AtWait o ev pid s → wait L tf pid s = .ok (true, t) →
      Part L o ev s t
  | fork {t r} : o.current ≠ idle → ev = .svc .fork → fork L o = .ok (r, t) → Part L o ev o t
  | openFile (path) : o.current ≠ idle → (ev = .svc (.openFile path) ∨ ev = .svc (.exec path)) →
      Part L o ev o (openFile o.current path o).2
  | closeFile {s t fd} : s.current ≠ idle →
      (ev = .svc (.closeFile fd) ∧ s = o ∨
        s.current = o.current ∧
          ∃ path a, ev = .svc (.exec path) ∧ openFile o.current path o = (fd, a) ∧ fd ≠ -1 ∧ SameFiles a s) →
      closeFile s.current fd s = .ok t → Part L o ev s t
  | readFile {s t fd buffer size n} : s.current ≠ idle → readFile s.current fd buffer size s = .ok (n, t) →
      (ev = .svc (.readFile fd buffer size) ∨ buffer = userBase ∧ ∃ path, ev = .svc (.exec path)) →
      Part L o ev s t
  | readRoot {s t buffer n} : s.current ≠ idle → ev = .svc (.readRootDirectory buffer) →
      readRootDirectory buffer s = .ok (n, t) → Part L o ev s t
  | takeKey {s front} : s.current ≠ idle → TakesKey o ev s front → Part L o ev s (takeKey front s).2
  | setX0 (s) (v : Nat) : s.current ≠ idle →
      Part L o ev s (s.setMem (s.memory.mem.write 8 ((s.proc s.current).tf + TrapFrame.x 0) v))
  | clearUser {s dst} : s.current ≠ idle → resolve s.memory.mem s.ttbr0 userBase pageSize = .ok dst →
      Part L o ev s (s.setMem (s.memory.mem.fill dst pageSize 0))
  | newFrame (s) : s.current ≠ idle → (∃ path, ev = .svc (.exec path)) →
      Part L o ev s (s.setMem ((((s.memory.mem.fill (s.proc s.current).tf TrapFrame.size 0).write 8
        ((s.proc s.current).tf + TrapFrame.elr) userBase).write 8
        ((s.proc s.current).tf + TrapFrame.sp0) (userBase + pageSize)).write 8
        ((s.proc s.current).tf + TrapFrame.spsr) 0))
  | store {s va b pa} : s.current ≠ idle → ev = .store va b → va < kernelBase →
      walk s.memory.mem s.ttbr0 va = some pa →
      Part L o ev s (s.setMem (s.memory.mem.write 1 (p2v pa + va % pageSize) b.toNat))

/-! ## Parts keep the processes and the lists in order -/

theorem Good.live (h : Good s) : s.Live s.current := by
  obtain ⟨q, lost, hq⟩ := h.sched
  simp [Kernel.Live, hq.current_state]

theorem Good.idle_live (h : Good s) : s.Live idle := by
  obtain ⟨q, lost, hq⟩ := h.sched
  cases hq.idleState with
  | inl hrun => simp [Kernel.Live, hrun]
  | inr hready => simp [Kernel.Live, hready]

theorem Good.ofSame {s t : Kernel} (h : Good s) (hs : SameSched s t) : Good t :=
  ⟨h.sched.imp fun _ => .imp fun _ hq => hs.inv hq, h.procs.ofSame hs⟩

theorem sleep_returns {s : Kernel} (h : Good s) (hc : s.current ≠ idle) (w : Int) : ∃ t, ArmOs.sleep w s = .ok t := by
  obtain ⟨q, lost, hq⟩ := h.sched
  obtain ⟨t, ht, -⟩ := sleep_spec hq hc w
  exact ⟨t, ht⟩

theorem exit_returns {s : Kernel} (h : Good s) (hc : s.current ≠ idle) : ∃ t, ArmOs.exit s = .ok t := by
  obtain ⟨q, lost, hq⟩ := h.sched
  obtain ⟨t, ht, -⟩ := exit_spec hq hc
  exact ⟨t, ht⟩

theorem wakeUp_returns {s : Kernel} (h : Good s) (w : Int) : ∃ t, wakeUp w s = .ok t := by
  obtain ⟨q, lost, hq⟩ := h.sched
  obtain ⟨t, ht, -⟩ := wakeUp_spec hq.queues w
  exact ⟨t, ht⟩

theorem yield_returns {s : Kernel} (h : Good s) : ∃ t, yield s = .ok t := by
  obtain ⟨q, lost, hq⟩ := h.sched
  obtain ⟨t, q', lost', ht, -⟩ := yield_spec hq
  exact ⟨t, ht⟩

theorem SchedInv.setKont {s : Kernel} {q : ListId → List Proc} {lost : Set Proc} (h : SchedInv s q lost)
    (i : Proc) (k : Kont) : SchedInv (s.setKont i k) q lost :=
  ⟨h.queues.congr (fun _ => rfl) (fun _ => rfl) fun _ => rfl, h.lostReady, h.idlePid, h.running, h.idleState, h.ttbr0, h.fifo,
    h.noSelf⟩

/-- Waking up processes does not switch to them. -/
theorem wakeUp_current {n : Nat} {w : Int} {s t : Kernel} (h : Good s) (hrun : wakeUp w { s with ticks := n } = .ok t) :
    t.current = s.current := by
  obtain ⟨q, lost, hq⟩ := (h.ofSame (.ofRest s s.memory s.fs s.keyBuffer n)).sched
  obtain ⟨t', hrun', hw⟩ := wakeUp_spec hq.queues w
  obtain rfl := Except.ok.inj (hrun'.symm.trans hrun)
  exact hw.current

theorem Part.good {o : Kernel} {ev : Event} {s t : Kernel} (h : Good s) (hp : Part L o ev s t) : Good t := by
  obtain ⟨q, lost, hq⟩ := h.sched
  cases hp with
  | tick _ n => exact h.ofSame (.ofRest s _ _ _ _)
  | writeKey _ ch => exact h.ofSame (writeKeyBuffer_same ch s)
  | wakeUp hrun =>
      obtain ⟨t', hrun', hw⟩ := wakeUp_spec hq.queues _
      obtain rfl := Except.ok.inj (hrun'.symm.trans hrun)
      exact ⟨⟨_, _, hw.inv hq⟩, h.procs.ofWakeUp hw⟩
  | yield hrun =>
      obtain ⟨t', q', lost', hrun', -, -, hsw⟩ := yield_spec hq
      obtain rfl := Except.ok.inj (hrun'.symm.trans hrun)
      exact ⟨⟨_, _, hsw.inv⟩, h.procs.ofYield hsw⟩
  | @sleep _ t w k hm hrun =>
      obtain ⟨t', hrun', -, hsw⟩ := sleep_spec hq hm.notIdle w
      obtain rfl := Except.ok.inj (hrun'.symm.trans hrun)
      refine ⟨⟨_, _, hsw.inv.setKont _ _⟩, (h.procs.ofSleep hm.kont hsw).setKont hm.notIdle ?_ ?_⟩
      · rw [hsw.frame.tf]
        exact hm.on
      · intro tf p hk
        obtain ⟨hw, hnone⟩ := hm.wait tf p hk
        refine ⟨by rw [hsw.wait, if_pos rfl, hw], fun j hj => ?_⟩
        rw [hsw.frame.pid]
        refine hnone j ?_
        rw [hsw.state] at hj
        split at hj
        · cases hj
        · split at hj
          · cases hj
          · exact hj
  | exit hc hk hrun =>
      obtain ⟨t', hrun', hsw⟩ := exit_spec hq hc
      obtain rfl := Except.ok.inj (hrun'.symm.trans hrun)
      exact ⟨⟨_, _, hsw.inv⟩, h.procs.ofExit hq hk hsw⟩
  | resume _ hc => exact ⟨⟨q, lost, hq.setKont _ _⟩, h.procs.setKont hc trivial nofun⟩
  | reap hc hat hrun =>
      rcases wait_ok hq hrun with ⟨-, x, ys, zs, hr⟩ | ⟨hf, -⟩
      · exact ⟨⟨_, _, hr.inv⟩, h.procs.ofReap hr⟩
      · cases hf
  | fork hc hev hrun =>
      obtain ⟨i, hf, hq', -⟩ := fork_spec hq hrun
      exact ⟨⟨_, _, hq'⟩, h.procs.ofFork hq hf⟩
  | openFile path hc => exact h.ofSame (openFile_same _ path _)
  | closeFile hc hev hrun => exact h.ofSame (closeFile_same hrun)
  | readFile hc hrun hev => exact h.ofSame (readFile_same hrun)
  | readRoot hc hev hrun => exact h.ofSame (readRootDirectory_same hrun)
  | @takeKey _ front hc htake => exact h.ofSame (takeKey_same front s)
  | setX0 _ v hc => exact h.ofSame (.setMem s _)
  | clearUser hc hdst => exact h.ofSame (.setMem s _)
  | newFrame _ hc => exact h.ofSame (.setMem s _)
  | store hc hev hva hwalk => exact h.ofSame (.setMem s _)

/-! ## Steps are sequences of parts -/

/-- A part, while the process of `o` still runs. -/
def OwnPart (L : Layout) (o : Kernel) (ev : Event) (s t : Kernel) : Prop := s.current = o.current ∧ Part L o ev s t

/-- A sequence of parts: after a switch there is no more of them. -/
abbrev Parts (L : Layout) (o : Kernel) (ev : Event) : Kernel → Kernel → Prop := Relation.ReflTransGen (OwnPart L o ev)

/-- A handler that works on the trap frame `tf` has run: if it returned, its caller is still running. -/
structure Handled (L : Layout) (o : Kernel) (ev : Event) (tf : Nat) (s : Kernel) (r : Option Int × Kernel) : Prop where
  parts : Parts L o ev s r.2
  back : r.1.isSome → r.2.current = s.current ∧ r.2.current ≠ idle ∧ (r.2.proc r.2.current).tf = tf

/-- The current process is a user process outside the kernel, with its trap frame at `tf`. -/
structure InUser (s : Kernel) (tf : Nat) : Prop where
  notIdle : s.current ≠ idle
  kont : s.kont s.current = .ret
  tf : (s.proc s.current).tf = tf

theorem InUser.ofSame {s t : Kernel} {tf : Nat} (h : InUser s tf) (hs : SameSched s t) : InUser t tf :=
  ⟨by rw [hs.current]; exact h.notIdle, by rw [hs.kont, hs.current]; exact h.kont,
    by rw [hs.current, hs.tf]; exact h.tf⟩

namespace Handled

variable {o : Kernel} {ev : Event} {tf : Nat} {s t : Kernel} {r : Option Int}

theorem same (h : InUser s tf) (hp : Parts L o ev s t) (hs : SameSched s t) : Handled L o ev tf s (r, t) :=
  ⟨hp, fun _ => ⟨hs.current, (h.ofSame hs).notIdle, (h.ofSame hs).tf⟩⟩

theorem leave (hp : Parts L o ev s t) : Handled L o ev tf s (none, t) := ⟨hp, nofun⟩

/-- The result is stored in the frame. -/
theorem returnX0 {r : Option Int × Kernel} (h : Handled L o ev tf s r) (hcur : s.current = o.current) :
    Parts L o ev s (ArmOs.returnX0 tf r).2 := by
  rcases r with ⟨_ | ret, t⟩
  · exact h.parts
  · obtain ⟨hback, hc, htf⟩ := h.back rfl
    refine h.parts.tail ⟨hback.trans hcur, ?_⟩
    simp only [ArmOs.returnX0, ← htf]
    exact .setX0 t _ hc

end Handled

section

variable {o : Kernel} {ev : Event} {tf : Nat} {s t : Kernel} {r : Option Int}

theorem sysWait_handled {pid : Int} (h : Good s) (hcur : s.current = o.current) (hu : InUser s tf) (hat : AtWait o ev pid s)
    (hrun : sysWait L tf pid s = .ok (r, t)) : Handled L o ev tf s (r, t) := by
  obtain ⟨⟨done, t'⟩, hwait, hrun⟩ := bind_eq_ok.mp hrun
  cases hrun
  obtain ⟨q, lost, hq⟩ := h.sched
  rcases wait_ok hq hwait with ⟨rfl, x, ys, zs, hr⟩ | ⟨rfl, hw⟩
  · refine ⟨.single ⟨hcur, .reap hu.notIdle hat hwait⟩, fun _ => ⟨hr.current, ?_⟩⟩
    have hne : s.current ≠ x := by
      intro he
      have := hq.current_state
      rw [he, hr.state] at this
      cases this
    rw [hr.current, hr.others _ hne]
    exact ⟨hu.notIdle, hu.tf⟩
  · obtain ⟨u, hsleep, rfl⟩ := hw.sleep
    refine .leave (.single ⟨hcur, .sleep ⟨hu.notIdle, hu.kont, hu.tf.symm, ?_⟩ hsleep⟩)
    intro tf' p hk
    cases hk
    refine ⟨rfl, fun j hj hp => ?_⟩
    have hidle : j ≠ idle := by
      rintro rfl
      rcases hq.idleState with h' | h' <;> rw [hj] at h' <;> cases h'
    have hlost : j ∉ lost := fun hl => by
      have := (hq.lostReady j hl).2.1
      rw [hj] at this
      cases this
    refine hw.none j ((hq.queues.mem .kill j).mpr ⟨hlost, hidle, hj⟩) ?_
    rw [(h.procs.killed j hj).1, hp]

theorem sysSleepLoop_handled {oldTicks sleepTicks : Nat} (hcur : s.current = o.current) (hu : InUser s tf)
    (hrun : sysSleepLoop tf oldTicks sleepTicks s = .ok (r, t)) : Handled L o ev tf s (r, t) := by
  unfold sysSleepLoop at hrun
  split at hrun
  · obtain ⟨u, hsleep, hrun⟩ := bind_eq_ok.mp hrun
    cases hrun
    exact .leave (.single ⟨hcur, .sleep ⟨hu.notIdle, hu.kont, hu.tf.symm, nofun⟩ hsleep⟩)
  · cases hrun
    exact .same hu .refl (.refl s)

theorem readKeyBuffer_handled {ch : Option UInt8} (hcur : s.current = o.current) (hu : InUser s tf)
    (hrun : readKeyBuffer tf s = .ok (ch, t)) : Handled L o ev tf s (ch.map fun c => (c.toNat : Int), t) := by
  unfold readKeyBuffer at hrun
  dsimp only at hrun
  split at hrun
  · obtain ⟨u, hsleep, hrun⟩ := bind_eq_ok.mp hrun
    cases hrun
    exact .leave (.single ⟨hcur, .sleep ⟨hu.notIdle, hu.kont, hu.tf.symm, nofun⟩ hsleep⟩)
  · cases hrun
    exact .same hu (.single ⟨hcur, .takeKey hu.notIdle (.inl ⟨rfl, ‹_›⟩)⟩) (takeKey_same _ s)

theorem exec_handled {path : Nat → UInt8} (hev : ev = .svc (.exec path)) (hu : InUser s tf)
    (hrun : exec s.current path s = .ok (r, t)) : Handled L s ev tf s (r, t) := by
  have hopen := openFile_same s.current path s
  have p₁ : Parts L s ev s (openFile s.current path s).2 := .single ⟨rfl, .openFile path hu.notIdle (.inr hev)⟩
  have hu₁ := hu.ofSame hopen
  unfold exec at hrun
  generalize hfd : openFile s.current path s = r₁ at hrun hopen p₁ hu₁
  obtain ⟨fd, s₁⟩ := r₁
  dsimp only at hrun hopen p₁ hu₁
  split at hrun
  case isTrue =>
    obtain ⟨u, hexit, hrun⟩ := bind_eq_ok.mp hrun
    cases hrun
    exact .leave (p₁.tail ⟨hopen.current, .exit hu₁.notIdle hu₁.kont hexit⟩)
  case isFalse =>
    obtain ⟨dst, hdst, hrun⟩ := bind_eq_ok.mp hrun
    have hs₂ := SameSched.setMem s₁ (s₁.memory.mem.fill dst pageSize 0)
    have p₂ := p₁.tail ⟨hopen.current, .clearUser hu₁.notIdle hdst⟩
    have hu₂ := hu₁.ofSame hs₂
    obtain ⟨size, hsize, hrun⟩ := bind_eq_ok.mp hrun
    obtain ⟨⟨readSize, s₃⟩, hread, hrun⟩ := bind_eq_ok.mp hrun
    have hs₃ := readFile_same hread
    have hf₃ := (SameFiles.setMem s₁ _).trans (readFile_sameFiles hread)
    rw [← hopen.current, ← hs₂.current] at hread
    have p₃ := p₂.tail ⟨hs₂.current.trans hopen.current, .readFile hu₂.notIdle hread (.inr ⟨rfl, path, hev⟩)⟩
    have hu₃ := hu₂.ofSame hs₃
    have hcur₃ : s₃.current = s.current := by rw [hs₃.current, hs₂.current, hopen.current]
    dsimp only at hrun
    split at hrun
    case isTrue =>
      obtain ⟨u, hexit, hrun⟩ := bind_eq_ok.mp hrun
      cases hrun
      exact .leave (p₃.tail ⟨hcur₃, .exit hu₃.notIdle hu₃.kont hexit⟩)
    case isFalse =>
      obtain ⟨s₄, hclose, hrun⟩ := bind_eq_ok.mp hrun
      cases hrun
      have hs₄ := closeFile_same hclose
      have hcur : s₄.current = s.current := hs₄.current.trans hcur₃
      rw [← hcur₃] at hclose
      have p₄ := p₃.tail ⟨hcur₃, .closeFile hu₃.notIdle (.inr ⟨hcur₃, path, s₁, hev, hfd, ‹_›, hf₃⟩) hclose⟩
      have hu₄ := hu₃.ofSame hs₄
      rw [← hcur]
      exact .same hu (p₄.tail ⟨hcur, .newFrame s₄ hu₄.notIdle ⟨path, hev⟩⟩)
        ((((hopen.trans hs₂).trans hs₃).trans hs₄).trans (.setMem s₄ _))

theorem syscallHandler_handled {call : Syscall} (h : Good s) (hu : InUser s tf) (hev : ev = .svc call)
    (hrun : syscallHandler L tf call s = .ok (r, t)) : Handled L s ev tf s (r, t) := by
  cases call with
  | write buffer size =>
      dsimp only [syscallHandler] at hrun
      split at hrun
      · obtain ⟨_, _, hrun⟩ := bind_eq_ok.mp hrun
        cases hrun
        exact .same hu .refl (.refl s)
      · cases hrun
        exact .same hu .refl (.refl s)
  | sleep ticks => exact sysSleepLoop_handled rfl hu hrun
  | exit =>
      obtain ⟨u, hexit, hrun⟩ := bind_eq_ok.mp hrun
      cases hrun
      exact .leave (.single ⟨rfl, .exit hu.notIdle hu.kont hexit⟩)
  | wait pid => exact sysWait_handled h rfl hu (.inl ⟨hev, rfl⟩) hrun
  | openFile path =>
      have hsame := openFile_same s.current path s
      have hpart : Part L s ev s (openFile s.current path s).2 := .openFile path hu.notIdle (.inl hev)
      dsimp only [syscallHandler] at hrun
      generalize openFile s.current path s = r₁ at hrun hsame hpart
      cases hrun
      exact .same hu (.single ⟨rfl, hpart⟩) hsame
  | closeFile fd =>
      obtain ⟨u, hclose, hrun⟩ := bind_eq_ok.mp hrun
      cases hrun
      exact .same hu (.single ⟨rfl, .closeFile hu.notIdle (.inl ⟨hev, rfl⟩) hclose⟩) (closeFile_same hclose)
  | getFileSize fd =>
      obtain ⟨_, _, hrun⟩ := bind_eq_ok.mp hrun
      cases hrun
      exact .same hu .refl (.refl s)
  | readFile fd buffer size =>
      obtain ⟨⟨n, u⟩, hread, hrun⟩ := bind_eq_ok.mp hrun
      cases hrun
      exact .same hu (.single ⟨rfl, .readFile hu.notIdle hread (.inl hev)⟩) (readFile_same hread)
  | fork =>
      obtain ⟨⟨pid, u⟩, hfork, hrun⟩ := bind_eq_ok.mp hrun
      cases hrun
      obtain ⟨q, lost, hq⟩ := h.sched
      obtain ⟨i, hf, -, -⟩ := fork_spec hq hfork
      refine ⟨.single ⟨rfl, .fork hu.notIdle hev hfork⟩, fun _ => ⟨hf.current, ?_⟩⟩
      have hne : s.current ≠ i := by
        intro he
        have := hq.current_state
        rw [he, hf.unused] at this
        cases this
      rw [hf.current, hf.others _ hne]
      exact ⟨hu.notIdle, hu.tf⟩
  | getpid =>
      cases hrun
      exact .same hu .refl (.refl s)
  | exec path => exact exec_handled hev hu hrun
  | keyboardRead =>
      obtain ⟨⟨ch, u⟩, hread, hrun⟩ := bind_eq_ok.mp hrun
      cases hrun
      exact readKeyBuffer_handled rfl hu hread
  | readRootDirectory buffer =>
      obtain ⟨⟨n, u⟩, hread, hrun⟩ := bind_eq_ok.mp hrun
      cases hrun
      exact .same hu (.single ⟨rfl, .readRoot hu.notIdle hev hread⟩) (readRootDirectory_same hread)
  | invalid =>
      cases hrun
      exact .same hu .refl (.refl s)

end

theorem resume_parts {s t : Kernel} {r : Option Int} (h : Good s) (hin : s.inKernel)
    (hrun : resume L s = .ok (r, t)) : Parts L s .resume s t := by
  have hc : s.current ≠ idle := by
    intro he
    exact hin (by rw [he]; exact h.procs.kontIdle)
  have hclear : Part L s .resume s (s.setKont s.current .ret) := .resume s hc rfl
  have h' := hclear.good h
  have hon := h.procs.kontOn s.current h.live
  have hu : InUser (s.setKont s.current .ret) (s.proc s.current).tf := ⟨hc, by simp [Kernel.setKont], rfl⟩
  refine Relation.ReflTransGen.head ⟨rfl, hclear⟩ ?_
  unfold resume at hrun
  dsimp only at hrun
  cases hk : s.kont s.current with
  | ret => exact absurd hk hin
  | wait tf pid =>
      rw [hk] at hrun hon
      obtain rfl : tf = _ := hon
      obtain ⟨⟨r', u⟩, hwait, hrun⟩ := bind_eq_ok.mp hrun
      have hat : AtWait s .resume pid (s.setKont s.current .ret) := .inr ⟨rfl, ⟨_, hk⟩, rfl⟩
      have hp := (sysWait_handled h' (rfl : _ = s.current) hu hat hwait).returnX0 rfl
      rwa [pure_eq_ok.mp hrun] at hp
  | sysSleep tf oldTicks sleepTicks =>
      rw [hk] at hrun hon
      obtain rfl : tf = _ := hon
      obtain ⟨⟨r', u⟩, hloop, hrun⟩ := bind_eq_ok.mp hrun
      have hhandled : Handled L s .resume _ _ (r', u) :=
        sysSleepLoop_handled (rfl : (s.setKont s.current .ret).current = s.current) hu hloop
      have hp := hhandled.returnX0 rfl
      rwa [pure_eq_ok.mp hrun] at hp
  | readKeyBuffer tf front =>
      rw [hk] at hrun hon
      obtain rfl : tf = _ := hon
      have hhandled : Handled L s .resume _ _ (some ((takeKey front (s.setKont s.current .ret)).1.toNat : Int), _) :=
        .same hu (.single ⟨rfl, .takeKey hc (.inr ⟨rfl, ⟨_, hk⟩, rfl⟩)⟩) (takeKey_same front _)
      have hp := hhandled.returnX0 rfl
      rwa [Except.ok.inj hrun] at hp

theorem userStore_parts {s t : Kernel} {va : Nat} {b : UInt8} {tf : Nat} (hu : InUser s tf)
    (hrun : userStore va b s = .ok t) : Parts L s (.store va b) s t := by
  unfold userStore at hrun
  split at hrun
  case h_1 pa hpa =>
    cases hrun
    split at hpa
    case isTrue hva => exact .single ⟨rfl, .store hu.notIdle rfl hva hpa⟩
    case isFalse => cases hpa
  case h_2 => exact .single ⟨rfl, .exit hu.notIdle hu.kont hrun⟩

theorem Step.parts {s t : Kernel} {l : Label} (h : Good s) (hstep : Step L s l t) :
    Parts L s l.event s t := by
  obtain ⟨-, hen, hrun⟩ := hstep
  obtain ⟨actor, event, ret⟩ := l
  dsimp only at hen hrun ⊢
  have hu : ¬s.inKernel → s.current ≠ idle → InUser s (s.proc s.current).tf := fun hk hc =>
    ⟨hc, not_not.mp hk, rfl⟩
  cases event with
  | timer istatus =>
      obtain ⟨u, htimer, hrun⟩ := bind_eq_ok.mp hrun
      obtain ⟨v, hyield, hrun⟩ := bind_eq_ok.mp hrun
      cases hrun
      unfold timerInterruptHandler at htimer
      split at htimer
      · have hcur : u.current = s.current := wakeUp_current h htimer
        exact .tail (.tail (.single ⟨rfl, .tick s ((s.ticks + 1) % 2 ^ 64)⟩) ⟨rfl, .wakeUp htimer⟩) ⟨hcur, .yield hyield⟩
      · cases htimer
        exact .single ⟨rfl, .yield hyield⟩
  | uart ch =>
      obtain ⟨u, huart, hrun⟩ := bind_eq_ok.mp hrun
      cases hrun
      cases ch with
      | some ch => exact .tail (.single ⟨rfl, .writeKey s ch rfl⟩) ⟨(writeKeyBuffer_same ch s).current, .wakeUp huart⟩
      | none =>
          cases huart
          exact .refl
  | fault =>
      obtain ⟨u, hexit, hrun⟩ := bind_eq_ok.mp hrun
      cases hrun
      exact .single ⟨rfl, .exit hen.2 (hu hen.1 hen.2).kont hexit⟩
  | svc call =>
      obtain ⟨r, hcall, hrun⟩ := bind_eq_ok.mp hrun
      have hp := (syscallHandler_handled h (hu hen.1 hen.2) rfl hcall).returnX0 rfl
      rwa [pure_eq_ok.mp hrun] at hp
  | store va b =>
      obtain ⟨u, hstore, hrun⟩ := bind_eq_ok.mp hrun
      cases hrun
      exact userStore_parts (hu hen.1 hen.2) hstore
  | resume => exact resume_parts h hen hrun
  | sleep w =>
      obtain ⟨u, hsleep, hrun⟩ := bind_eq_ok.mp hrun
      cases hrun
      have hu := hu hen.1 hen.2
      obtain ⟨q, lost, hq⟩ := h.sched
      obtain ⟨u', hsleep', -, hsw⟩ := sleep_spec hq hu.notIdle w
      obtain rfl := Except.ok.inj (hsleep'.symm.trans hsleep)
      have hret : u'.setKont s.current .ret = u' := by
        have : u'.kont s.current = .ret := by rw [hsw.frame.kont]; exact hu.kont
        rw [Kernel.setKont, ← this, Function.update_eq_self]
      have hp : Part L s (.sleep w) s (u'.setKont s.current .ret) :=
        .sleep ⟨hu.notIdle, hu.kont, trivial, by simp⟩ hsleep
      rw [hret] at hp
      exact .single ⟨rfl, hp⟩
  | wakeUp w =>
      obtain ⟨u, hwake, hrun⟩ := bind_eq_ok.mp hrun
      cases hrun
      exact .single ⟨rfl, .wakeUp hwake⟩

/-! ## Rules for steps and runs -/

theorem Parts.preserves {o : Kernel} {ev : Event} {I : Kernel → Prop} {s t : Kernel}
    (hI : ∀ ⦃a b⦄, Good a → OwnPart L o ev a b → I a → I b) (h : Good s) (hp : Parts L o ev s t) (hs : I s) :
    Good t ∧ I t := by
  induction hp with
  | refl => exact ⟨h, hs⟩
  | tail _ hlast ih => exact ⟨hlast.2.good ih.1, hI ih.1 hlast ih.2⟩

theorem Step.preserves {I : Kernel → Prop} {s t : Kernel} {l : Label}
    (hI : ∀ ⦃a b⦄, Good a → Part L s l.event a b → I a → I b) (h : Good s) (hstep : Step L s l t) (hs : I s) :
    Good t ∧ I t :=
  (hstep.parts h).preserves (fun _ _ ha hp => hI ha hp.2) h hs

theorem Step.good {s t : Kernel} {l : Label} (h : Good s) (hstep : Step L s l t) : Good t :=
  (hstep.preserves (I := fun _ => True) (fun _ _ _ _ _ => trivial) h trivial).1

/-- A property of the first state that all parts keep holds in every state of a run. -/
theorem Run.preserves {I : Kernel → Prop} {s t : Kernel} {ls : List Label} (hrun : Run (Step L) s ls t)
    (hI : ∀ ⦃o ev a b⦄, Good a → Part L o ev a b → I a → I b) (h : Good s) (hs : I s) : Good t ∧ I t :=
  hrun.invariant (I := fun u => Good u ∧ I u) ⟨h, hs⟩ fun _ _ _ hu hstep =>
    hstep.preserves (fun _ _ => @hI _ _ _ _) hu.1 hu.2

end ArmOs
