import ArmOs.Context.Lemmas.Views

/-!
# Steps of the machine

An exception saves the registers of the process that runs, the kernel handles it, and the C code ends. The machine is
in order again, and every process has what it had, but for what the process that entered the kernel did itself.
-/

namespace ArmOs

open Lib El1

variable {C : Code} {s t : Kernel} {m m' : Mem} {p q x : Proc} {xs : List Nat} {tf tf' : Nat} {ev : Event}
  {r : Option Int} {a b : Machine} {calls : Proc → Call} {parked : Proc → Option SwapCall}

/-! ## The other processes -/

/-- A process that lives leaves the others what they see. -/
theorem Turned.view_other (ht : Turned C.toLayout s ev t) (hx : s.IsUser x) (hx' : t.Live x) (hne : x ≠ s.current) :
    t.view x = s.view x := by
  have hbe := ht.leavesBe x hx.2 hx'
  have hpages := ht.leavesPages x hx hx'
  obtain ⟨hbase, htop⟩ := Kernel.stack_congr hbe.stack
  have hsmall : TrapFrame.size ≤ pageSize := by decide
  apply UserView.ext
  · simp only [Kernel.view]
    rw [htop]
    apply contextAt_congr
    have hstack := hpages.memory hne .stack
    rw [Kernel.stackTop_user hx.1]
    exact hstack.sub (by omega) (by omega)
  · funext i
    simp only [Kernel.view]
    rw [hpages.page]
    exact hpages.memory hne .frame _ (Nat.le_add_right _ _) (Nat.add_lt_add_left i.isLt _)
  · simp only [Kernel.view]
    rw [hbe.kont hne]

/-- Two trap frames that differ in `x0` only. -/
theorem contextAt_child (hx0 : m'.read 8 (tf' + TrapFrame.x 0) = 0)
    (hregs : ∀ k, 8 ≤ k → k < TrapFrame.size → m' (tf' + k) = m (tf + k)) :
    contextAt m' tf' = (contextAt m tf).setX0 0 := by
  have hword : ∀ k, 8 ≤ k → k + 8 ≤ TrapFrame.size → word m' (tf' + k) = word m (tf + k) := by
    intro k hk hlt
    rw [word, word, Mem.read_shift]
    intro i hi
    rw [Nat.add_assoc, Nat.add_assoc]
    exact hregs (k + i) (by omega) (by omega)
  have hfields : 8 ≤ TrapFrame.sp0 ∧ TrapFrame.sp0 + 8 ≤ TrapFrame.size ∧ 8 ≤ TrapFrame.elr ∧
      TrapFrame.elr + 8 ≤ TrapFrame.size ∧ 8 ≤ TrapFrame.spsr ∧ TrapFrame.spsr + 8 ≤ TrapFrame.size := by decide
  obtain ⟨hsp0, hsp0', helr, helr', hspsr, hspsr'⟩ := hfields
  apply Context.ext
  · funext i
    by_cases hi : i = 0
    · subst hi
      simp only [contextAt, Context.setX0, Function.update_self]
      rw [word]
      exact congrArg (BitVec.ofNat 64) hx0
    · have hpos : i.val ≠ 0 := fun he => hi (Fin.ext he)
      simp only [contextAt, Context.setX0, Function.update_of_ne hi]
      apply hword
      · simp only [TrapFrame.x]
        omega
      · simp only [TrapFrame.x, TrapFrame.size]
        omega
  · exact hword _ hsp0 hsp0'
  · exact hword _ helr helr'
  · exact hword _ hspsr hspsr'

/-- The child sees what its parent saw, and 0 in `x0`. -/
theorem Born.view (h : Born C.toLayout s t x) (hs : Good s) (ht : Good t) (hc : s.current ≠ idle) (hx : t.IsUser x) :
    t.view x = ⟨(s.view s.current).context.setX0 0, (s.view s.current).page, false⟩ := by
  apply UserView.ext
  · simp only [Kernel.view]
    rw [← ht.tf_top hx, ← hs.tf_top ⟨hc, hs.live⟩]
    exact contextAt_child h.x0 h.registers
  · funext i
    have hbyte := congrArg (·[i.val]?) h.image
    simpa [Kernel.view, Mem.bytes] using hbyte
  · simp [Kernel.view, h.kont]

theorem Turned.views_other {u : UserView} (ht : Turned C.toLayout s ev t) (hne : x ≠ s.current) (hu : s.views x = some u) :
    t.views x = some u := by
  obtain ⟨⟨hidle, halive⟩, rfl⟩ := Kernel.views_eq_some.mp hu
  have halive' := ht.alive x halive hne
  exact Kernel.views_eq_some.mpr ⟨⟨hidle, halive'⟩, ht.view_other ⟨hidle, halive.1⟩ halive'.1 hne⟩

theorem Turned.views_born {v : UserView} (ht : Turned C.toLayout s ev t) (hs : Good s) (hgood : Good t)
    (hen : Enabled s ev) (hne : x ≠ s.current) (hnone : s.views x = none) (hv : t.views x = some v) :
    ev = .svc .fork ∧ ∃ u, s.views s.current = some u ∧ UserView.Child u (some (ev, r)) v := by
  obtain ⟨⟨hidle, halive⟩, rfl⟩ := Kernel.views_eq_some.mp hv
  have hdead : ¬s.Alive x := fun h => Kernel.views_eq_none.mp hnone ⟨hidle, h⟩
  -- a killed process stays killed, so this one is new
  have hunused : ¬s.Live x := by
    intro hlive
    have hbe := ht.leavesBe x hlive halive.1
    exact hdead ⟨hlive, fun hk => halive.2 ((hbe.killed hne).mpr hk)⟩
  obtain ⟨rfl, hborn⟩ := ht.born x hunused halive.1
  have hc : s.current ≠ idle := hen.2
  refine ⟨rfl, _, Kernel.views_eq_some.mpr ⟨⟨hc, hs.current_alive⟩, rfl⟩, rfl, ?_⟩
  exact hborn.view hs hgood hc ⟨hidle, halive.1⟩

/-! ## The process that enters -/

/-- The events for which the kernel is entered, or goes on. -/
def Event.Enters : Event → Prop
  | .timer _ | .uart _ | .fault | .svc _ | .resume => True
  | .store _ _ | .sleep _ | .wakeUp _ => False

/-- An interrupt changes neither memory nor where a process continues. -/
structure Interrupted (s t : Kernel) : Prop where
  memory : t.memory = s.memory
  kont : t.kont = s.kont
  alive : ∀ p, t.Alive p ↔ s.Alive p
  good : Good t

theorem Interrupted.trans {u : Kernel} (h : Interrupted s t) (h' : Interrupted t u) : Interrupted s u :=
  ⟨h'.memory.trans h.memory, h'.kont.trans h.kont, fun p => (h'.alive p).trans (h.alive p), h'.good⟩

/-- `kill_list` is the same. -/
theorem Interrupted.ofFrame {q q' : ListId → List Proc} {lost lost' : Set Proc} (h : SchedFrame s t)
    (hq : SchedInv s q lost) (hq' : SchedInv t q' lost') (hkill : q' .kill = q .kill) (hgood : Good t) :
    Interrupted s t := by
  have hkilled : ∀ p, (t.proc p).state = .killed ↔ (s.proc p).state = .killed := by
    intro p
    rw [← hq.mem_kill, ← hq'.mem_kill, hkill]
  exact ⟨h.memory, h.kont, fun p => and_congr (h.live p) (not_congr (hkilled p)), hgood⟩

theorem wakeUp_interrupted {w : Int} (hs : Good s) (hrun : wakeUp w s = .ok t) : Interrupted s t := by
  obtain ⟨q, lost, hq⟩ := hs.sched
  obtain ⟨t', hrun', hw⟩ := wakeUp_spec hq.queues w
  obtain rfl := Except.ok.inj (hrun'.symm.trans hrun)
  exact .ofFrame hw.frame hq (hw.inv hq) rfl ⟨⟨_, _, hw.inv hq⟩, hs.procs.ofWakeUp hw⟩

theorem timer_interrupted {istatus : Bool} (hs : Good s)
    (hrun : exceptionHandler C.toLayout tf (.timer istatus) s = .ok (r, t)) : Interrupted s t ∧ r = none := by
  obtain ⟨u, htimer, hrun⟩ := bind_eq_ok.mp hrun
  obtain ⟨v, hyield, hrun⟩ := bind_eq_ok.mp hrun
  cases hrun
  have hu : Interrupted s u := by
    unfold timerInterruptHandler at htimer
    split at htimer
    · have hticks := hs.ofSame (.ofRest s s.memory s.fs s.keyBuffer ((s.ticks + 1) % 2 ^ 64))
      obtain ⟨hmem, hkont, halive, hgood⟩ := wakeUp_interrupted hticks htimer
      exact ⟨hmem, hkont, halive, hgood⟩
    · cases htimer
      exact ⟨rfl, rfl, fun _ => Iff.rfl, hs⟩
  obtain ⟨q, lost, hq⟩ := hu.good.sched
  obtain ⟨t', q', lost', hrun', -, hkill, hsw⟩ := yield_spec hq
  obtain rfl := Except.ok.inj (hrun'.symm.trans hyield)
  exact ⟨hu.trans (.ofFrame hsw.frame hq hsw.inv hkill ⟨⟨_, _, hsw.inv⟩, hu.good.procs.ofYield hsw⟩), rfl⟩

theorem uart_interrupted {ch : Option UInt8} (hs : Good s)
    (hrun : exceptionHandler C.toLayout tf (.uart ch) s = .ok (r, t)) : Interrupted s t ∧ r = none := by
  obtain ⟨u, huart, hrun⟩ := bind_eq_ok.mp hrun
  cases hrun
  refine ⟨?_, rfl⟩
  cases ch with
  | none =>
      cases huart
      exact ⟨rfl, rfl, fun _ => Iff.rfl, hs⟩
  | some ch =>
      have hsame := writeKeyBuffer_same ch s
      have hmem : (writeKeyBuffer ch s).memory = s.memory := by
        unfold writeKeyBuffer
        dsimp only
        split <;> rfl
      have hwrite : Interrupted s (writeKeyBuffer ch s) := by
        refine ⟨hmem, hsame.kont, fun p => ?_, hs.ofSame hsame⟩
        rw [Kernel.Alive, Kernel.Alive, hsame.state]
      exact hwrite.trans (wakeUp_interrupted hwrite.good huart)

/-- What the process sees after an interrupt is what it saw. -/
theorem Interrupted.views (h : Interrupted s t) (hs : Good s) (hc : s.current ≠ idle) (ht : SamePlaces s t) :
    t.views s.current = some (s.view s.current) := by
  rw [← interrupt_view ht h.memory h.kont]
  exact Kernel.views_alive hc ((h.alive _).mpr hs.current_alive)

/-- What the process sees after it has entered the kernel, if it has not exited. -/
theorem exceptionHandler_view (h : PageInv C.toLayout s xs) (hs : Good s) (hc : s.current ≠ idle) (ht : SamePlaces s t)
    (hgood : Good t) (hptr : ev.UserPointers) (hen : Enabled s ev) (hev : ev.Enters)
    (hrun : exceptionHandler C.toLayout (s.proc s.current).tf ev s = .ok (r, t)) :
    UserView.Step (s.view s.current) (some (ev, r)) (t.views s.current) := by
  have hcalling : ¬s.inKernel → (s.view s.current).calling = false := by
    intro hret
    have hret : s.kont s.current = .ret := not_not.mp hret
    simp [Kernel.view, hret]
  cases ev with
  | timer istatus =>
      obtain ⟨hi, rfl⟩ := timer_interrupted hs hrun
      rw [hi.views hs hc ht]
      exact .timer (hcalling hen)
  | uart ch =>
      obtain ⟨hi, rfl⟩ := uart_interrupted hs hrun
      rw [hi.views hs hc ht]
      exact .uart (hcalling hen)
  | fault =>
      obtain ⟨q, lost, hq⟩ := hs.sched
      obtain ⟨u, hexit, hrun⟩ := bind_eq_ok.mp hrun
      cases hrun
      rw [Kernel.views_killed (exit_killed hq hc hexit).1]
      exact .fault (hcalling hen.1)
  | svc call => exact systemCall_view hs hc h ht hgood hptr (not_not.mp hen.1) hrun
  | resume => exact resume_view hs hc h ht hgood hen hrun
  | store va b => cases hev
  | sleep w => cases hev
  | wakeUp w => cases hev

/-! ## Entering the kernel -/

/-- The registers of the process are in its trap frame. -/
structure Trapped (a : Machine) (e : Cpu × Mem) : Prop where
  sp : e.1.sp.toNat + TrapFrame.size = a.kernel.stackTop a.kernel.current
  x0 : (e.1.x 0).toNat = e.1.sp.toNat
  outside : ∀ x, x < e.1.sp.toNat ∨ a.kernel.stackTop a.kernel.current ≤ x → e.2 x = a.kernel.memory.mem x
  context : contextAt e.2 e.1.sp.toNat = a.context

/-- The trap frame is on the kernel stack. -/
theorem Trapped.scribbled {e : Cpu × Mem} (h : Trapped a e) (hpages : PageInv C.toLayout a.kernel xs) (hs : Good a.kernel) :
    a.kernel.Scribbled a.kernel.current (a.kernel.stackTop a.kernel.current) e.2 := by
  obtain ⟨hroom, -⟩ := hpages.stack_bounds hs.live
  have hsp := h.sp
  exact fun x hx => h.outside x (hx.imp_left fun hlt => by omega)

theorem Machine.enter_trapped {handler : List Instr} {esr : Word} {e : Cpu × Mem} (h : PageInv C.toLayout a.kernel xs)
    (hs : Good a.kernel) (hsp : a.cpu.sp.toNat = a.kernel.stackTop a.kernel.current)
    (hhandler : handler = syncHandler ∨ handler = irqHandler) (he : a.enter handler esr = e) : Trapped a e := by
  obtain ⟨hroom, hwrap⟩ := h.stack_bounds hs.live
  have hentered : ∃ trapno, Entered (((a.cpu.setSys .elrEl1 a.pc).setSys .spsrEl1 a.pstate).setSys .esrEl1 esr)
      a.kernel.memory.mem trapno e := by
    cases hhandler with
    | inl hsync =>
        rw [← he, hsync]
        exact ⟨_, syncHandler_run _ _⟩
    | inr hirq =>
        rw [← he, hirq]
        exact ⟨_, irqHandler_run _ _⟩
  obtain ⟨trapno, hentered⟩ := hentered
  have hsize : TrapFrame.size ≤ a.kernel.stackTop a.kernel.current := by omega
  have htop : e.1.sp.toNat = a.kernel.stackTop a.kernel.current - TrapFrame.size := hentered.toNat_sp hsp hsize
  refine ⟨by omega, ?_, fun x hx => ?_, ?_⟩
  · rw [htop]
    exact hentered.toNat_x0 hsp hsize
  · have hout : x + 1 ≤ a.kernel.stackTop a.kernel.current - TrapFrame.size ∨
        a.kernel.stackTop a.kernel.current ≤ x := by
      rw [htop] at hx
      exact hx.imp_left Nat.succ_le_of_lt
    exact hentered.outside hsp hsize hout x (Nat.le_refl x) (Nat.lt_succ_self x)
  · rw [htop, hentered.contextAt_eq hsp hsize]
    rfl

/-- After the exception the kernel has what the process sees. -/
theorem Trapped.view {e : Cpu × Mem} (h : Trapped a e) (hpages : PageInv C.toLayout a.kernel xs) (hs : Good a.kernel)
    (hret : ¬a.kernel.inKernel) (hp : a.kernel.IsUser p) : (a.kernel.setMem e.2).view p = a.view p := by
  have hm := h.scribbled hpages hs
  obtain ⟨hsp, -, -, hcontext⟩ := h
  have hpage := fun {k} hk => hm.page hpages hs.live (Nat.le_refl _) (k := k) hp hk
  have hframe := hpage (k := .frame) (.inr (by simp))
  have hsame : ((a.kernel.setMem e.2).view p).page = (a.kernel.view p).page := by
    funext i
    simp only [Kernel.view]
    rw [(hm.pageInv hpages hs.live (Nat.le_refl _)).2 p .frame hp]
    exact hframe _ (Nat.le_add_right _ _) (Nat.add_lt_add_left i.isLt _)
  unfold Machine.view
  split
  · rename_i hruns
    obtain ⟨rfl, -⟩ := hruns
    refine UserView.ext ?_ hsame rfl
    rw [← hcontext, Nat.eq_sub_of_add_eq hsp]
    rfl
  · rename_i hruns
    have hne : p ≠ a.kernel.current := fun he => hruns ⟨he.symm, hret⟩
    refine UserView.ext ?_ hsame rfl
    have hstack := hm.stack hpages hs.live (Nat.le_refl _) hp.2 hne
    obtain ⟨hroom, -⟩ := hpages.stack_bounds hp.2
    have hframe' : Mem.Same a.kernel.memory.mem e.2 (a.kernel.stackTop p - TrapFrame.size) TrapFrame.size :=
      hstack.sub (by omega) (by omega)
    exact contextAt_congr hframe'

/-! ## The machine goes on -/

/-- The other processes can go on after the step as before. -/
theorem Turned.waits (ht : Turned C.toLayout s ev t) (hs : Good s)
    (hw : ∀ q, s.Alive q → q ≠ s.current → Resumable C s calls parked q) :
    ∀ q, t.Alive q → q ≠ s.current → Resumable C t calls parked q := by
  intro q hq hne
  by_cases hlive : s.Live q
  · have hbe := ht.leavesBe q hlive hq.1
    have halive : s.Alive q := ⟨hlive, fun hk => hq.2 ((hbe.killed hne).mpr hk)⟩
    apply (hw q halive hne).congr hbe.stack hbe.context (hbe.kont hne) rfl rfl
    by_cases hidle : q = idle
    · subst hidle
      rw [s.stackBase_idle, s.stackTop_idle]
      have himage := C.idleTop_le
      have hle : kernelBase ≤ idleTop := Nat.le_add_right _ _
      exact ht.low.sub (Nat.zero_le _) (by omega)
    · have hstack := (ht.leavesPages q ⟨hidle, hlive⟩ hq.1).memory hne .stack
      rw [Kernel.stackBase_user hidle, Kernel.stackTop_user hidle, Nat.add_sub_cancel_left]
      exact hstack
  · obtain ⟨-, hborn⟩ := ht.born q hlive hq.1
    obtain ⟨ys, hys⟩ := ht.pages
    obtain ⟨hroom, -⟩ := hys.stack_bounds hq.1
    have hidle : q ≠ idle := by
      rintro rfl
      exact hlive hs.idle_live
    have hcontext := hborn.context
    have htop : t.stackTop q = (t.proc q).stack + pageSize := Kernel.stackTop_user hidle
    have hbase : t.stackBase q = (t.proc q).stack := Kernel.stackBase_user hidle
    refine .fresh hborn.kont (by omega) (by omega) ?_
    rw [word]
    exact congrArg (BitVec.ofNat 64) hborn.x30

theorem Settled.views (h : Settled C s b) : b.views = s.views := by
  obtain ⟨hinv, hsame, hcontext⟩ := h
  funext p
  rw [Machine.views, Kernel.views]
  by_cases hp : p ≠ idle ∧ s.Alive p
  · have hp' : p ≠ idle ∧ b.kernel.Alive p := ⟨hp.1, (hsame.alive p).mpr hp.2⟩
    have hu : s.IsUser p := ⟨hp.1, hp.2.1⟩
    rw [if_pos hp', if_pos hp, ← hsame.view hu]
    unfold Machine.view
    split
    · rename_i hruns
      obtain ⟨rfl, hret⟩ := hruns
      rw [hcontext hret]
      rfl
    · rfl
  · have hp' : ¬(p ≠ idle ∧ b.kernel.Alive p) := fun hp' => hp ⟨hp'.1, (hsame.alive p).mp hp'.2⟩
    rw [if_neg hp', if_neg hp]

/-- After the kernel has handled an event of the current process, and its C code has ended. -/
theorem Step.settled (hs : Good s) (h : PageInv C.toLayout s xs) (hptr : ev.UserPointers) (hev : ev.Enters)
    (hstep : Step C.toLayout s ⟨s.current, ev, r⟩ t)
    (hw : ∀ q, s.Alive q → q ≠ s.current → Resumable C s calls parked q)
    (hcall : (calls s.current).sp.toNat + TrapFrame.size = s.stackTop s.current)
    (hends : TurnEnds C s.current t calls parked b) :
    MachineInv C b ∧ FamilyStep UserView.Step UserView.Child s.current (some (ev, r)) s.views b.views := by
  obtain ⟨hgood, ht⟩ := hstep.turned hs h hptr
  obtain ⟨ys, hys⟩ := ht.pages
  obtain ⟨-, hen, hrun⟩ := hstep
  have htop : t.stackTop s.current = s.stackTop s.current :=
    (Kernel.stack_congr (ht.leavesBe s.current hs.live ht.actor).stack).2
  have hsettled := hends.settled hgood hys ht.actor (hcall.trans htop.symm) (ht.waits hs hw)
  refine ⟨hsettled.inv, ?_⟩
  rw [hsettled.views]
  refine ⟨fun u hu => ?_, fun hnone => ?_, fun j u hj hu => ht.views_other hj hu, fun j v hj hnone hv => ?_⟩
  · obtain ⟨⟨hc, -⟩, rfl⟩ := Kernel.views_eq_some.mp hu
    exact exceptionHandler_view h hs hc (ht.samePlaces hs hc) hgood hptr hen hev hrun
  · have hidle : s.current = idle := by
      by_contra hc
      exact Kernel.views_eq_none.mp hnone ⟨hc, hs.current_alive⟩
    exact Kernel.views_eq_none.mpr fun hp => hp.1 hidle
  · exact (ht.views_born hs hgood hen hj hnone hv).2

theorem Machine.views_eq (h : ∀ p, a.kernel.IsUser p → s.view p = a.view p) (halive : ∀ p, s.Alive p ↔ a.kernel.Alive p) :
    s.views = a.views := by
  funext p
  rw [Machine.views, Kernel.views]
  by_cases hp : p ≠ idle ∧ a.kernel.Alive p
  · rw [if_pos hp, if_pos ⟨hp.1, (halive p).mpr hp.2⟩, h p ⟨hp.1, hp.2.1⟩]
  · rw [if_neg hp, if_neg fun hp' => hp ⟨hp'.1, (halive p).mp hp'.2⟩]

/-- A process that does not run. -/
theorem Machine.views_other (hne : p ≠ a.kernel.current) : a.views p = a.kernel.views p := by
  have hnot : ¬a.Runs p := fun h => hne h.1.symm
  rw [Machine.views, Kernel.views, Machine.view, if_neg hnot]

/-- The process that runs. -/
theorem Machine.views_current (hs : Good a.kernel) (hc : a.kernel.current ≠ idle) (hret : ¬a.kernel.inKernel) :
    a.views a.kernel.current = some ⟨a.context, (a.kernel.view a.kernel.current).page, false⟩ := by
  have hkont : a.kernel.kont a.kernel.current = .ret := not_not.mp hret
  rw [Machine.views, if_pos ⟨hc, hs.current_alive⟩, Machine.view, if_pos ⟨rfl, hret⟩]
  refine congrArg some (UserView.ext rfl rfl ?_)
  simp [Kernel.view, hkont]

/-- A store that does not end the process is a store to its page. -/
theorem userStore_ok {va : Nat} {v : UInt8} (h : PageInv C.toLayout s xs) (hs : Good s) (hc : s.current ≠ idle)
    (hgood : Good t) (hcur : t.current = s.current) (hrun : userStore va v s = .ok t) :
    ∃ k m, k < pageSize ∧ va = userBase + k ∧ t = s.setMem m ∧
      s.memory.mem.write 1 (s.pageOf s.current .frame + k) v.toNat = m := by
  obtain ⟨hu, httbr0, hmaps⟩ := h.current hs hc
  unfold userStore at hrun
  split at hrun
  · rename_i pa hwalk
    have hlow : va < kernelBase := by
      by_contra hnot
      rw [if_neg hnot] at hwalk
      cases hwalk
    rw [if_pos hlow, httbr0] at hwalk
    obtain ⟨hle, hlt, hpa⟩ := hmaps.walk_some hwalk
    obtain ⟨k, rfl⟩ := Nat.exists_eq_add_of_le hle
    have hk : k < pageSize := Nat.lt_of_add_lt_add_left hlt
    have hoffset : (userBase + k) % pageSize = k := by
      have hbase : userBase % pageSize = 0 := by decide
      rw [Nat.add_mod, hbase, Nat.zero_add, Nat.mod_mod, Nat.mod_eq_of_lt hk]
    rw [hpa, hoffset] at hrun
    exact ⟨k, _, hk, rfl, (Except.ok.inj hrun).symm, rfl⟩
  · obtain ⟨q, lost, hq⟩ := hs.sched
    have hkilled := (exit_killed hq hc hrun).1
    rw [← hcur] at hkilled
    exact absurd hkilled hgood.current_alive.2

theorem store_view {va : Nat} {v : UInt8} (h : PageInv C.toLayout s xs) (hs : Good s) (hc : s.current ≠ idle)
    (hgood : Good t) (ht : SamePlaces s t) (hcur : t.current = s.current) (hrun : userStore va v s = .ok t) :
    t.kont = s.kont ∧ ∃ i : Fin pageSize, va = userBase + i ∧
      (t.view s.current).page = Function.update (s.view s.current).page i v := by
  obtain ⟨k, m, hk, hva, rfl, hm⟩ := userStore_ok h hs hc hgood hcur hrun
  refine ⟨rfl, ⟨k, hk⟩, hva, ?_⟩
  funext i
  have hbyte : ((s.setMem m).view s.current).page i = m (s.pageOf s.current .frame + i) :=
    congrArg (fun frame => m (frame + i)) ht.2
  rw [hbyte, ← hm]
  by_cases hi : i = ⟨k, hk⟩
  · rw [hi, Function.update_self]
    simp [Mem.write]
  · have hne : i.val ≠ k := fun he => hi (Fin.ext he)
    rw [Function.update_of_ne hi]
    exact Mem.write_same (k := 1) (by omega) _ (Nat.le_refl _) (Nat.lt_succ_self _)

/-! ## Steps of the processes -/

/-- The current process has run its own code. -/
theorem own_keeps (h : MachineInv C a) (hc : a.kernel.current ≠ idle) (hret : ¬a.kernel.inKernel)
    (hkernel : b.kernel = a.kernel) (hcalls : b.calls = a.calls) (hparked : b.parked = a.parked)
    (hsp : b.cpu.sp = a.cpu.sp) :
    MachineInv C b ∧ FamilyStep UserView.Step UserView.Child a.kernel.current none a.views b.views := by
  obtain ⟨hs, hpages, hothers, hown, hinside⟩ := h
  have hother : ∀ j, j ≠ a.kernel.current → b.views j = a.views j := by
    intro j hj
    rw [Machine.views_other hj, Machine.views_other (hkernel ▸ hj), hkernel]
  have ha := Machine.views_current hs hc hret
  have hb : b.views a.kernel.current = some ⟨b.context, (a.kernel.view a.kernel.current).page, false⟩ := by
    rw [← hkernel] at hs hc hret ⊢
    exact Machine.views_current hs hc hret
  refine ⟨⟨hkernel ▸ hs, hkernel ▸ hpages, ?_, ?_, ?_⟩, fun u hu => ?_, fun hnone => ?_, fun j u hj hu => ?_,
    fun j v hj hnone hv => ?_⟩
  · rw [hkernel, hcalls, hparked]
    exact hothers
  · rw [hkernel, hsp]
    exact hown
  · rw [hkernel, hcalls]
    exact hinside
  · obtain rfl := Option.some.inj (ha.symm.trans hu)
    rw [hb]
    exact .own
  · exact absurd (ha.symm.trans hnone) (by simp)
  · exact (hother j hj).trans hu
  · rw [hother j hj, hnone] at hv
    cases hv

/-- The current process has stored a byte to its page. -/
theorem store_keeps {va : Nat} {v : UInt8} (h : MachineInv C a)
    (hstep : Step C.toLayout a.kernel ⟨a.kernel.current, .store va v, none⟩ t) (hcur : t.current = a.kernel.current) :
    MachineInv C { a with kernel := t } ∧
      FamilyStep UserView.Step UserView.Child a.kernel.current (some (.store va v, none)) a.views
        { a with kernel := t }.views := by
  obtain ⟨hs, ⟨xs, hpages⟩, hothers, hown, hinside⟩ := h
  have hptr : (Event.store va v).UserPointers := trivial
  obtain ⟨hgood, ht⟩ := hstep.turned hs hpages hptr
  obtain ⟨-, ⟨hret, hc⟩, hrun⟩ := hstep
  obtain ⟨u, hstore, hrun⟩ := bind_eq_ok.mp hrun
  cases hrun
  have hplaces := ht.samePlaces hs hc
  obtain ⟨hkont, i, hva, hpage⟩ := store_view hpages hs hc hgood hplaces hcur hstore
  have hret' : ¬t.inKernel := by
    rw [Kernel.inKernel, hkont, hcur]
    exact hret
  have hother : ∀ j, j ≠ a.kernel.current → { a with kernel := t }.views j = t.views j := by
    intro j hj
    rw [← hcur] at hj
    exact Machine.views_other (a := { a with kernel := t }) hj
  have ha := Machine.views_current hs hc hret
  have hb : { a with kernel := t }.views a.kernel.current =
      some ⟨a.context, Function.update (a.kernel.view a.kernel.current).page i v, false⟩ := by
    have hb' := Machine.views_current (a := { a with kernel := t }) hgood (hcur ▸ hc) hret'
    rw [← hpage]
    rw [hcur] at hb'
    exact hb'
  refine ⟨⟨hgood, ht.pages, ?_, ?_, fun hin => absurd hin hret'⟩, fun u hu => ?_, fun hnone => ?_,
    fun j u hj hu => ?_, fun j w hj hnone hw => ?_⟩
  · rw [hcur]
    exact ht.waits hs hothers
  · intro _
    rw [hcur, hplaces.1]
    exact hown hret
  · obtain rfl := Option.some.inj (ha.symm.trans hu)
    rw [hb]
    exact .store hva
  · exact absurd (ha.symm.trans hnone) (by simp)
  · rw [Machine.views_other hj] at hu
    exact (hother j hj).trans (ht.views_other hj hu)
  · rw [Machine.views_other hj] at hnone
    rw [hother j hj] at hw
    cases (ht.views_born (r := none) hs hgood ⟨hret, hc⟩ hj hnone hw).1

/-- The kernel is entered. -/
theorem trap_keeps {handler : List Instr} {esr : Word} {e : Cpu × Mem} (h : MachineInv C a)
    (hhandler : handler = syncHandler ∨ handler = irqHandler) (he : a.enter handler esr = e)
    (hhandles : Handles (a.kernel.setMem e.2) (e.1.x 0).toNat ev) (hen : Enabled (a.kernel.setMem e.2) ev) (hptr : ev.UserPointers)
    (hrun : exceptionHandler C.toLayout (e.1.x 0).toNat ev (a.kernel.setMem e.2) = .ok (r, t))
    (hends : TurnEnds C a.kernel.current t
      (Function.update a.calls a.kernel.current ⟨e.1.sp, calleeSaved e.1⟩) a.parked b) :
    MachineInv C b ∧ FamilyStep UserView.Step UserView.Child a.kernel.current (some (ev, r)) a.views b.views := by
  obtain ⟨hs, ⟨xs, hpages⟩, hothers, hown, -⟩ := h
  have hevent : ev.Enters ∧ ¬a.kernel.inKernel ∧
      (a.kernel.current = idle → (∃ istatus, ev = .timer istatus) ∨ ∃ ch, ev = .uart ch) := by
    cases ev with
    | timer istatus => exact ⟨trivial, hen, fun _ => .inl ⟨istatus, rfl⟩⟩
    | uart ch => exact ⟨trivial, hen, fun _ => .inr ⟨ch, rfl⟩⟩
    | fault => exact ⟨trivial, hen.1, fun hc => absurd hc hen.2⟩
    | svc call => exact ⟨trivial, hen.1, fun hc => absurd hc hen.2⟩
    | store => cases hhandles
    | resume => cases hhandles
    | sleep => cases hhandles
    | wakeUp => cases hhandles
  obtain ⟨hev, hret, hidle⟩ := hevent
  have htrapped := Machine.enter_trapped hpages hs (hown hret) hhandler he
  have hscribbled := htrapped.scribbled hpages hs
  have hpages' := (hscribbled.pageInv hpages hs.live (Nat.le_refl _)).1
  have hs' : Good (a.kernel.setMem e.2) := hs.ofSame (.setMem _ _)
  have hviews : (a.kernel.setMem e.2).views = a.views :=
    Machine.views_eq (fun p hp => htrapped.view hpages hs hret hp) fun _ => Iff.rfl
  have hstep : Step C.toLayout (a.kernel.setMem e.2) ⟨a.kernel.current, ev, r⟩ t := by
    refine ⟨rfl, hen, ?_⟩
    by_cases hc : a.kernel.current = idle
    · -- the interrupts do not look at the trap frame
      cases hidle hc with
      | inl htimer =>
          obtain ⟨istatus, rfl⟩ := htimer
          exact hrun
      | inr huart =>
          obtain ⟨ch, rfl⟩ := huart
          exact hrun
    · have htf : ((a.kernel.setMem e.2).proc a.kernel.current).tf = (e.1.x 0).toNat := by
        have hsp := htrapped.sp
        rw [htrapped.x0]
        have htop := hs.tf_top ⟨hc, hs.live⟩
        exact htop.trans (by omega)
      show exceptionHandler C.toLayout ((a.kernel.setMem e.2).proc a.kernel.current).tf ev (a.kernel.setMem e.2) = _
      rw [htf]
      exact hrun
  have hcall : (Function.update a.calls a.kernel.current ⟨e.1.sp, calleeSaved e.1⟩ a.kernel.current).sp = e.1.sp := by
    rw [Function.update_self]
  have hother : ∀ q, q ≠ a.kernel.current →
      Function.update a.calls a.kernel.current ⟨e.1.sp, calleeSaved e.1⟩ q = a.calls q :=
    fun q hq => Function.update_of_ne hq _ _
  generalize Function.update a.calls a.kernel.current ⟨e.1.sp, calleeSaved e.1⟩ = calls at hends hcall hother
  have hwaits : ∀ q, (a.kernel.setMem e.2).Alive q → q ≠ (a.kernel.setMem e.2).current →
      Resumable C (a.kernel.setMem e.2) calls a.parked q := by
    intro q hq hne
    have hstack := hscribbled.stack hpages hs.live (Nat.le_refl _) hq.1 hne
    exact (hothers q hq hne).congr rfl rfl rfl (hother q hne) rfl hstack
  have hsp := htrapped.sp
  rw [← hcall] at hsp
  have hsettled := hstep.settled hs' hpages' hptr hev hwaits hsp hends
  rw [hviews] at hsettled
  exact hsettled

/-- The kernel goes on inside a system call. -/
theorem resume_keeps (h : MachineInv C a) (hstep : Step C.toLayout a.kernel ⟨a.kernel.current, .resume, r⟩ t)
    (hends : TurnEnds C a.kernel.current t a.calls a.parked b) :
    MachineInv C b ∧ FamilyStep UserView.Step UserView.Child a.kernel.current (some (.resume, r)) a.views b.views := by
  obtain ⟨hs, ⟨xs, hpages⟩, hothers, hown, hinside⟩ := h
  have hin : a.kernel.inKernel := hstep.2.1
  have hviews : a.kernel.views = a.views := by
    apply Machine.views_eq _ fun _ => Iff.rfl
    intro p hp
    have hnot : ¬a.Runs p := fun hr => hr.2 hin
    rw [Machine.view, if_neg hnot]
  have hevent : Event.resume.UserPointers ∧ Event.resume.Enters := ⟨trivial, trivial⟩
  have hsettled := hstep.settled hs hpages hevent.1 hevent.2 hothers (hinside hin) hends
  rw [hviews] at hsettled
  exact hsettled

/-- The buffers of a system call are in the lower half. -/
def Act.UserPointers (act : Act) : Prop := ∀ e ∈ act, e.1.UserPointers

/-- A step of the machine is a step of the private machine of the process that takes it. -/
theorem MachineStep.keeps {l : Proc × Act} (h : MachineInv C a) (hstep : MachineStep C a l b) (hptr : Act.UserPointers l.2) :
    MachineInv C b ∧ FamilyStep UserView.Step UserView.Child l.1 l.2 a.views b.views := by
  cases hstep with
  | own hc hret hsp => exact own_keeps h hc hret rfl rfl rfl hsp
  | store hstep hcur => exact store_keeps h hstep hcur
  | trap hhandler he hhandles hen hrun hends =>
      exact trap_keeps h hhandler he hhandles hen (hptr _ rfl) hrun hends
  | resume hstep hends => exact resume_keeps h hstep hends

end ArmOs
