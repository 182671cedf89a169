import ArmOs.Sleep.Lemmas.Turn

/-!
# Steps of other processes

Only a tick of the timer counts. Every step leaves a process that does not run on `wait_list` or brings it nearer to its
turn, and a tick does so for all that sleep for the event value -1.
-/

namespace ArmOs

open Lib

variable {L : Layout} {s t u : Kernel} {p i : Proc} {w : Int} {q : ListId → List Proc} {lost : Set Proc} {tf : Nat}
  {r : Option Int}

/-! ## The functions that do not count -/

theorem openFile_ticks (p : Proc) (path : Nat → UInt8) (s : Kernel) : (openFile p path s).2.ticks = s.ticks := by
  unfold openFile
  split
  · rfl
  · split
    · rfl
    · dsimp only
      split
      · rfl
      · rfl

theorem closeFile_ticks {fd : Int} (h : closeFile p fd s = .ok t) : t.ticks = s.ticks := by
  unfold closeFile at h
  split at h
  · obtain ⟨_, -, h⟩ := bind_eq_ok.mp h
    obtain ⟨_, -, h⟩ := bind_eq_ok.mp h
    obtain ⟨_, -, h⟩ := bind_eq_ok.mp h
    cases h
    rfl
  · cases h

theorem readFile_ticks {fd : Int} {buffer size n : Nat} (h : readFile p fd buffer size s = .ok (n, t)) :
    t.ticks = s.ticks := by
  unfold readFile at h
  obtain ⟨_, -, h⟩ := bind_eq_ok.mp h
  obtain ⟨_, -, h⟩ := bind_eq_ok.mp h
  obtain ⟨_, -, h⟩ := bind_eq_ok.mp h
  dsimp only at h
  split at h
  · cases h
    rfl
  · obtain ⟨_, -, h⟩ := bind_eq_ok.mp h
    cases h
    rfl

theorem readRootDirectory_ticks {buffer n : Nat} (h : readRootDirectory buffer s = .ok (n, t)) : t.ticks = s.ticks := by
  obtain ⟨_, -, h⟩ := bind_eq_ok.mp h
  cases h
  rfl

theorem writeKeyBuffer_ticks (ch : UInt8) (s : Kernel) : (writeKeyBuffer ch s).ticks = s.ticks := by
  unfold writeKeyBuffer
  dsimp only
  split
  · rfl
  · rfl

theorem returnX0_ticks (tf : Nat) (r : Option Int) (s : Kernel) : (returnX0 tf (r, s)).2.ticks = s.ticks := by
  cases r with
  | none => rfl
  | some ret => rfl

theorem removeWait_ticks {l : ListId} {item : ListPtr Proc} (h : s.removeWait l w = .ok (item, t)) :
    t.ticks = s.ticks := by
  obtain ⟨_, -, h⟩ := bind_eq_ok.mp h
  cases h
  rfl

/-- `wait` that reaps a process. -/
theorem wait_ticks {pid : Int} (h : wait L tf pid s = .ok (true, t)) : t.ticks = s.ticks := by
  by_cases hempty : isListEmpty s.pc.killList = true
  · simp only [wait, hempty, if_true, pure, Except.pure, ok_bind] at h
    obtain ⟨_, -, h⟩ := bind_eq_ok.mp h
    cases h
  · simp only [wait, hempty, Bool.false_eq_true, if_false] at h
    obtain ⟨⟨found, u⟩, hremove, h⟩ := bind_eq_ok.mp h
    cases found with
    | item x =>
        obtain ⟨_, -, h⟩ := bind_eq_ok.mp h
        obtain ⟨_, -, h⟩ := bind_eq_ok.mp h
        obtain ⟨_, -, h⟩ := bind_eq_ok.mp h
        cases h
        have hu : u.ticks = s.ticks := removeWait_ticks hremove
        exact hu
    | null =>
        obtain ⟨_, -, h⟩ := bind_eq_ok.mp h
        cases h
    | head => cases h

theorem fork_ticks {pid : Int} (hcur : (s.proc s.current).state ≠ .unused) (h : fork L s = .ok (pid, t)) :
    t.ticks = s.ticks := by
  obtain ⟨i, s₁, M, fs, halloc, -, -, happend, -⟩ := fork_ok h hcur
  obtain ⟨-, stack, pageMap, M₁, M₂, -, -, -, -, hs₁⟩ := allocNewProcess_ok halloc
  have hticks : (forked s₁ i s.current M fs).ticks = s.ticks := by
    rw [hs₁]
    rfl
  rw [(SameButLinks.ofAppendTail happend).ticks, hticks]

/-! ## What a handler does to the others -/

/-- No tick is counted, and the processes that do not run wait on. -/
structure Passes (s t : Kernel) : Prop where
  ticks : t.ticks = s.ticks
  waits : ∀ p, s.current ≠ p → s.Live p → Waits p s t

namespace Passes

theorem refl (s : Kernel) : Passes s s := ⟨rfl, fun p _ _ => .refl p s⟩

theorem ofSame (h : SameSched s t) (hticks : t.ticks = s.ticks) : Passes s t := ⟨hticks, fun _ _ _ => .ofSame h⟩

/-- While the same process runs. -/
theorem trans (h : Passes s t) (hcur : t.current = s.current) (hlive : ∀ p, s.Live p → t.Live p) (h' : Passes t u) :
    Passes s u where
  ticks := h'.ticks.trans h.ticks
  waits p hne hp := (h.waits p hne hp).trans (h'.waits p (hcur ▸ hne) (hlive p hp))

theorem afterSame (h : SameSched s t) (hticks : t.ticks = s.ticks) (h' : Passes t u) : Passes s u :=
  (ofSame h hticks).trans h.current (fun p => (h.live p).mpr) h'

theorem thenSame (h : Passes s t) (h' : SameSched t u) (hticks : u.ticks = t.ticks) : Passes s u where
  ticks := hticks.trans h.ticks
  waits p hne hp := (h.waits p hne hp).trans (.ofSame h')

/-- The current process changes its place. -/
theorem setKont (s : Kernel) (k : Kont) : Passes s (s.setKont s.current k) := ⟨rfl, fun _ hne _ => .setKont hne.symm k⟩

theorem sleep (h : SchedInv s q lost) (hc : s.current ≠ idle) (hrun : ArmOs.sleep w s = .ok t) : Passes s t where
  ticks := by
    obtain ⟨t', hrun', -, hsw⟩ := sleep_spec h hc w
    obtain rfl := Except.ok.inj (hrun'.symm.trans hrun)
    exact hsw.frame.ticks
  waits p hne _ := (Nears.sleep h hc hne hrun).toWaits

theorem sleepAt (h : SchedInv s q lost) (hc : s.current ≠ idle) (hrun : ArmOs.sleep w s = .ok t) (k : Kont) :
    Passes s (t.setKont s.current k) where
  ticks := (sleep h hc hrun).ticks
  waits p hne hp := ((sleep h hc hrun).waits p hne hp).trans (.setKont hne.symm k)

theorem exit (h : SchedInv s q lost) (hc : s.current ≠ idle) (hrun : ArmOs.exit s = .ok t) : Passes s t where
  ticks := by
    obtain ⟨t', hrun', hsw⟩ := exit_spec h hc
    obtain rfl := Except.ok.inj (hrun'.symm.trans hrun)
    exact hsw.frame.ticks
  waits p hne _ := (Nears.exit h hc hne hrun).toWaits

theorem wakeUp (h : SchedInv s q lost) (hrun : ArmOs.wakeUp w s = .ok t) : Passes s t where
  ticks := by
    obtain ⟨t', hrun', hw⟩ := wakeUp_spec h.queues w
    obtain rfl := Except.ok.inj (hrun'.symm.trans hrun)
    exact hw.frame.ticks
  waits _ _ _ := .wakeUp h hrun

theorem fork {pid : Int} (h : SchedInv s q lost) (hrun : ArmOs.fork L s = .ok (pid, t)) : Passes s t where
  ticks := fork_ticks (by simp [h.current_state]) hrun
  waits p _ hp := by
    obtain ⟨i, hf, hinv, -⟩ := fork_spec h hrun
    have hpi : p ≠ i := by
      rintro rfl
      exact hp hf.unused
    refine .append h hinv hf.current (by rw [hf.kont, Function.update_of_ne hpi]) ⟨[i], by simp⟩ fun w hw => .inl ?_
    rw [Asleep, hf.others p hpi]
    exact hw

theorem reap {pid : Int} {x : Proc} {ys zs : List Proc} (h : SchedInv s q lost) (hticks : t.ticks = s.ticks)
    (hr : Reaped L s t q lost pid x ys zs) : Passes s t where
  ticks := hticks
  waits p _ _ := by
    refine .append h hr.inv hr.current (by rw [hr.kont]) ⟨[], by simp⟩ fun w hw => .inl ?_
    have hpx : p ≠ x := by
      rintro rfl
      have hstate := hw.1
      rw [hr.state] at hstate
      cases hstate
    rw [Asleep, hr.others p hpx]
    exact hw

/-! ## System calls -/

theorem sysWait {pid : Int} (h : SchedInv s q lost) (hc : s.current ≠ idle)
    (hrun : ArmOs.sysWait L tf pid s = .ok (r, t)) : Passes s t := by
  obtain ⟨⟨done, t'⟩, hwait, hrun⟩ := bind_eq_ok.mp hrun
  cases hrun
  rcases wait_ok h hwait with ⟨rfl, x, ys, zs, hr⟩ | ⟨rfl, hw⟩
  · exact reap h (wait_ticks hwait) hr
  · obtain ⟨u, hsleep, rfl⟩ := hw.sleep
    exact sleepAt h hc hsleep _

theorem sysSleepLoop {oldTicks sleepTicks : Nat} (h : SchedInv s q lost) (hc : s.current ≠ idle)
    (hrun : ArmOs.sysSleepLoop tf oldTicks sleepTicks s = .ok (r, t)) : Passes s t := by
  unfold ArmOs.sysSleepLoop at hrun
  split at hrun
  · obtain ⟨u, hsleep, hrun⟩ := bind_eq_ok.mp hrun
    cases hrun
    exact sleepAt h hc hsleep _
  · cases hrun
    exact refl s

theorem readKeyBuffer {ch : Option UInt8} (h : SchedInv s q lost) (hc : s.current ≠ idle)
    (hrun : ArmOs.readKeyBuffer tf s = .ok (ch, t)) : Passes s t := by
  unfold ArmOs.readKeyBuffer at hrun
  dsimp only at hrun
  split at hrun
  · obtain ⟨u, hsleep, hrun⟩ := bind_eq_ok.mp hrun
    cases hrun
    exact sleepAt h hc hsleep _
  · cases hrun
    exact ofSame (takeKey_same _ s) rfl

theorem exec {path : Nat → UInt8} (h : SchedInv s q lost) (hc : s.current ≠ idle)
    (hrun : ArmOs.exec s.current path s = .ok (r, t)) : Passes s t := by
  have hopen := openFile_same s.current path s
  have hticks := openFile_ticks s.current path s
  unfold ArmOs.exec at hrun
  generalize openFile s.current path s = r₁ at hrun hopen hticks
  obtain ⟨fd, s₁⟩ := r₁
  dsimp only at hrun hopen hticks
  split at hrun
  case isTrue =>
    obtain ⟨v, hexit, hrun⟩ := bind_eq_ok.mp hrun
    cases hrun
    exact afterSame hopen hticks (exit (hopen.inv h) (hopen.current ▸ hc) hexit)
  case isFalse =>
    obtain ⟨dst, hdst, hrun⟩ := bind_eq_ok.mp hrun
    obtain ⟨size, hsize, hrun⟩ := bind_eq_ok.mp hrun
    obtain ⟨⟨readSize, s₃⟩, hread, hrun⟩ := bind_eq_ok.mp hrun
    have hs₃ := (hopen.trans (.setMem s₁ _)).trans (readFile_same hread)
    have hticks₃ : s₃.ticks = s.ticks := (readFile_ticks hread).trans hticks
    dsimp only at hrun
    split at hrun
    case isTrue =>
      obtain ⟨v, hexit, hrun⟩ := bind_eq_ok.mp hrun
      cases hrun
      exact afterSame hs₃ hticks₃ (exit (hs₃.inv h) (hs₃.current ▸ hc) hexit)
    case isFalse =>
      obtain ⟨s₄, hclose, hrun⟩ := bind_eq_ok.mp hrun
      cases hrun
      exact ofSame ((hs₃.trans (closeFile_same hclose)).trans (.setMem s₄ _)) ((closeFile_ticks hclose).trans hticks₃)

theorem syscallHandler {call : Syscall} (h : SchedInv s q lost) (hc : s.current ≠ idle)
    (hrun : ArmOs.syscallHandler L tf call s = .ok (r, t)) : Passes s t := by
  cases call with
  | write buffer size =>
      dsimp only [ArmOs.syscallHandler] at hrun
      split at hrun
      · obtain ⟨_, _, hrun⟩ := bind_eq_ok.mp hrun
        cases hrun
        exact refl s
      · cases hrun
        exact refl s
  | sleep ticks => exact sysSleepLoop h hc hrun
  | exit =>
      obtain ⟨v, hexit, hrun⟩ := bind_eq_ok.mp hrun
      cases hrun
      exact exit h hc hexit
  | wait pid => exact sysWait h hc hrun
  | openFile path =>
      have hopen := openFile_same s.current path s
      have hticks := openFile_ticks s.current path s
      dsimp only [ArmOs.syscallHandler] at hrun
      generalize ArmOs.openFile s.current path s = r₁ at hrun hopen hticks
      cases hrun
      exact ofSame hopen hticks
  | closeFile fd =>
      obtain ⟨v, hclose, hrun⟩ := bind_eq_ok.mp hrun
      cases hrun
      exact ofSame (closeFile_same hclose) (closeFile_ticks hclose)
  | getFileSize fd =>
      obtain ⟨_, _, hrun⟩ := bind_eq_ok.mp hrun
      cases hrun
      exact refl s
  | readFile fd buffer size =>
      obtain ⟨⟨n, v⟩, hread, hrun⟩ := bind_eq_ok.mp hrun
      cases hrun
      exact ofSame (readFile_same hread) (readFile_ticks hread)
  | fork =>
      obtain ⟨⟨pid, v⟩, hfork, hrun⟩ := bind_eq_ok.mp hrun
      cases hrun
      exact fork h hfork
  | getpid =>
      cases hrun
      exact refl s
  | exec path =>
      have hexec : ArmOs.exec s.current path s = .ok (r, t) := hrun
      exact exec h hc hexec
  | keyboardRead =>
      obtain ⟨⟨ch, v⟩, hread, hrun⟩ := bind_eq_ok.mp hrun
      cases hrun
      exact readKeyBuffer h hc hread
  | readRootDirectory buffer =>
      obtain ⟨⟨n, v⟩, hread, hrun⟩ := bind_eq_ok.mp hrun
      cases hrun
      exact ofSame (readRootDirectory_same hread) (readRootDirectory_ticks hread)
  | invalid =>
      cases hrun
      exact refl s

/-- The result is stored in the frame. -/
theorem returnX0 (h : Passes s t) (tf : Nat) (r : Option Int) : Passes s (ArmOs.returnX0 tf (r, t)).2 :=
  h.thenSame (returnX0_same tf r t) (returnX0_ticks tf r t)

theorem resume (h : Good s) (hc : s.current ≠ idle) (hrun : ArmOs.resume L s = .ok (r, t)) : Passes s t := by
  obtain ⟨q, lost, hq⟩ := h.sched
  have hq' := hq.setKont s.current .ret
  have hstart : ∀ {v}, Passes (s.setKont s.current .ret) v → Passes s v :=
    (setKont s .ret).trans rfl fun _ hp => hp
  unfold ArmOs.resume at hrun
  dsimp only at hrun
  cases hk : s.kont s.current with
  | ret =>
      rw [hk] at hrun
      cases hrun
      exact setKont s .ret
  | wait tf pid =>
      rw [hk] at hrun
      obtain ⟨⟨r', v⟩, hwait, hrun⟩ := bind_eq_ok.mp hrun
      have hp := (hstart (sysWait hq' hc hwait)).returnX0 tf r'
      rwa [pure_eq_ok.mp hrun] at hp
  | sysSleep tf oldTicks sleepTicks =>
      rw [hk] at hrun
      obtain ⟨⟨r', v⟩, hloop, hrun⟩ := bind_eq_ok.mp hrun
      have hp := (hstart (sysSleepLoop hq' hc hloop)).returnX0 tf r'
      rwa [pure_eq_ok.mp hrun] at hp
  | readKeyBuffer tf front =>
      rw [hk] at hrun
      have hp := (hstart (ofSame (takeKey_same front _) rfl)).returnX0 tf
        (some ((takeKey front (s.setKont s.current .ret)).1.toNat : Int))
      rwa [Except.ok.inj hrun] at hp

end Passes

/-! ## Steps -/

/-- The timer counts a tick. -/
def Event.isTick : Event → Bool
  | .timer istatus => istatus
  | _ => false

/-- A timer interrupt without a tick. -/
theorem Passes.yield (h : SchedInv s q lost) (hrun : ArmOs.yield s = .ok t) : Passes s t where
  ticks := by
    obtain ⟨t', q', lost', hrun', -, -, hsw⟩ := yield_spec h
    obtain rfl := Except.ok.inj (hrun'.symm.trans hrun)
    exact hsw.frame.ticks
  waits p hne _ := (Nears.yield h hne hrun).toWaits

theorem timerInterruptHandler_false : timerInterruptHandler false s = .ok s := rfl

theorem timerInterruptHandler_true :
    timerInterruptHandler true s = wakeUp (-1) { s with ticks := (s.ticks + 1) % 2 ^ 64 } := rfl

/-- A store of user code, or the fault it causes. -/
theorem Passes.userStore {va : Nat} {b : UInt8} (h : SchedInv s q lost) (hc : s.current ≠ idle)
    (hrun : ArmOs.userStore va b s = .ok t) : Passes s t := by
  unfold ArmOs.userStore at hrun
  split at hrun
  · obtain ⟨m, rfl⟩ : ∃ m, t = s.setMem m := ⟨_, (Except.ok.inj hrun).symm⟩
    exact ofSame (.setMem s m) rfl
  · exact exit h hc hrun

theorem Step.passes {l : Label} (h : Good s) (hstep : Step L s l t) (hev : l.event.isTick = false) : Passes s t := by
  obtain ⟨q, lost, hq⟩ := h.sched
  obtain ⟨-, hen, hrun⟩ := hstep
  obtain ⟨actor, event, ret⟩ := l
  dsimp only at hen hrun hev
  cases event with
  | timer istatus =>
      obtain rfl : istatus = false := hev
      obtain ⟨v, htimer, hrun⟩ := bind_eq_ok.mp hrun
      rw [timerInterruptHandler_false] at htimer
      obtain rfl := Except.ok.inj htimer
      obtain ⟨v, hyield, hrun⟩ := bind_eq_ok.mp hrun
      obtain rfl : v = t := (Prod.mk.inj (pure_eq_ok.mp hrun)).2
      exact .yield hq hyield
  | uart ch =>
      obtain ⟨v, huart, hrun⟩ := bind_eq_ok.mp hrun
      cases hrun
      cases ch with
      | some ch =>
          have hsame := writeKeyBuffer_same ch s
          exact .afterSame hsame (writeKeyBuffer_ticks ch s) (.wakeUp (hsame.inv hq) huart)
      | none =>
          cases huart
          exact .refl s
  | fault =>
      obtain ⟨v, hexit, hrun⟩ := bind_eq_ok.mp hrun
      cases hrun
      exact .exit hq hen.2 hexit
  | svc call =>
      obtain ⟨⟨r, v⟩, hcall, hrun⟩ := bind_eq_ok.mp hrun
      have hp := (Passes.syscallHandler hq hen.2 hcall).returnX0 (s.proc s.current).tf r
      rwa [pure_eq_ok.mp hrun] at hp
  | store va b =>
      obtain ⟨v, hstore, hrun⟩ := bind_eq_ok.mp hrun
      cases hrun
      exact .userStore hq hen.2 hstore
  | resume =>
      refine .resume h (fun hc => hen ?_) hrun
      rw [hc]
      exact h.procs.kontIdle
  | sleep w =>
      obtain ⟨v, hsleep, hrun⟩ := bind_eq_ok.mp hrun
      cases hrun
      exact .sleep hq hen.2 hsleep
  | wakeUp w =>
      obtain ⟨v, hwake, hrun⟩ := bind_eq_ok.mp hrun
      cases hrun
      exact .wakeUp hq hwake

/-- A tick is counted, the sleepers are woken, and a process is dispatched. -/
theorem Step.tick {l : Label} (h : Good s) (hstep : Step L s l t) (hev : l.event.isTick = true) :
    t.ticks = (s.ticks + 1) % 2 ^ 64 ∧
      ∀ p, s.current ≠ p → Nears p s t ∧ (Asleep s p (-1) → Due t p numProc) := by
  obtain ⟨q, lost, hq⟩ := h.sched
  obtain ⟨-, -, hrun⟩ := hstep
  obtain ⟨actor, event, ret⟩ := l
  dsimp only at hrun hev
  cases event with
  | timer istatus =>
      obtain rfl : istatus = true := hev
      obtain ⟨v, htimer, hrun⟩ := bind_eq_ok.mp hrun
      rw [timerInterruptHandler_true] at htimer
      obtain ⟨u, hyield, hrun⟩ := bind_eq_ok.mp hrun
      obtain rfl : u = t := (Prod.mk.inj (pure_eq_ok.mp hrun)).2
      have hcount : SameSched s { s with ticks := (s.ticks + 1) % 2 ^ 64 } := .ofRest s _ _ _ _
      have hq₁ := hcount.inv hq
      obtain ⟨v', hwake', hw⟩ := wakeUp_spec hq₁.queues (-1)
      obtain rfl := Except.ok.inj (hwake'.symm.trans htimer)
      have hq₂ := hw.inv hq₁
      have hcur : v'.current = s.current := hw.current
      have hyields : ∀ p, s.current ≠ p → Nears p v' u := fun p hne => .yield hq₂ (hcur ▸ hne) hyield
      refine ⟨?_, fun p hne => ⟨.ofWaits ((Waits.ofSame hcount).trans (.wakeUp hq₁ htimer)) (hyields p hne), fun hp => ?_⟩⟩
      · obtain ⟨u', q', lost', hrun', -, -, hsw⟩ := yield_spec hq₂
        obtain rfl := Except.ok.inj (hrun'.symm.trans hyield)
        rw [hsw.frame.ticks, hw.frame.ticks]
      · have hmem : p ∈ woken { s with ticks := (s.ticks + 1) % 2 ^ 64 } q (-1) .ready :=
          List.mem_append_right _ (List.mem_filter.mpr ⟨hp.mem hq, decide_eq_true hp.2⟩)
        exact (hyields p hne).due numProc (hq₂.due_of_mem hmem)
  | uart | fault | svc | store | resume | sleep | wakeUp => cases hev

end ArmOs
