import ArmOs.Context.Lemmas.Traps

/-!
# Processes as private machines

The kernel, with its stacks and its context switches, is a family of private machines: a program sees its registers and
its page as it left them, whatever the others do and whenever it is interrupted.
-/

namespace ArmOs

open Lib El1

variable {C : Code} {L : Layout} {s t : Kernel} {m : Mem} {a b c : Machine} {p q : Proc} {xs : List Nat}
  {ls ks : List (Proc × Act)}

/-- Steps of the machine in which the buffers of system calls are in the lower half. -/
abbrev UserStep (C : Code) : Machine → Proc × Act → Machine → Prop :=
  Guarded (fun _ l => Act.UserPointers l.2) (MachineStep C)

/-- An interrupt of the timer or of the keyboard. -/
def Event.Interrupt : Event → Prop
  | .timer _ | .uart _ => True
  | _ => False

instance : DecidablePred Event.Interrupt := by
  intro ev
  unfold Event.Interrupt
  split <;> infer_instance

def Act.Interrupt (act : Act) : Prop := ∃ e ∈ act, e.1.Interrupt

instance : DecidablePred Act.Interrupt := fun act => inferInstanceAs (Decidable (∃ e ∈ act, e.1.Interrupt))

instance : DecidablePred Act.UserPointers := fun act => inferInstanceAs (Decidable (∀ e ∈ act, e.1.UserPointers))

/-! ## Runs of the small machine -/

/-- The small machine runs, and runs on. -/
theorem smallMachine_steps (causes causes' : List Cause)
    (P : List (Proc × Act) → Machine → List (Proc × Act) → Machine → Prop) [∀ ls b ks c, Decidable (P ls b ks c)]
    (h : ((smallMachine causes).bind fun r => (r.2.performAll smallCode causes').map fun r' =>
      decide (P r.1 r.2 r'.1 r'.2)) = some true) :
    ∃ a ls b ks c, Boots smallCode smallMem a ∧ Run (MachineStep smallCode) a ls b ∧
      Run (MachineStep smallCode) b ks c ∧ P ls b ks c := by
  obtain ⟨⟨ls, b⟩, hfirst, h⟩ := Option.bind_eq_some_iff.mp h
  obtain ⟨⟨ks, c⟩, hsecond, h⟩ := Option.map_eq_some_iff.mp h
  obtain ⟨s, hboot, hall⟩ := Option.bind_eq_some_iff.mp hfirst
  exact ⟨smallIdle s, ls, b, ks, c, ⟨toOption_eq_some.mp hboot, by rfl⟩, Machine.performAll_run hall,
    Machine.performAll_run hsecond, of_decide_eq_true h⟩

/-- It does so with buffers in the lower half. -/
theorem smallMachine_runs (causes causes' : List Cause) (P : Machine → List (Proc × Act) → Machine → Prop)
    [∀ b ks c, Decidable (P b ks c)]
    (h : ((smallMachine causes).bind fun r => (r.2.performAll smallCode causes').map fun r' =>
      decide ((∀ l ∈ r.1 ++ r'.1, Act.UserPointers l.2) ∧ P r.2 r'.1 r'.2)) = some true) :
    ∃ a ls b ks c, Boots smallCode smallMem a ∧ Run (UserStep smallCode) a ls b ∧ Run (UserStep smallCode) b ks c ∧
      P b ks c := by
  obtain ⟨a, ls, b, ks, c, hboot, hrun, hrun', hptr, hP⟩ := smallMachine_steps causes causes'
    (fun ls b ks c => (∀ l ∈ ls ++ ks, Act.UserPointers l.2) ∧ P b ks c) h
  rw [List.forall_mem_append] at hptr
  exact ⟨a, ls, b, ks, c, hboot, hrun.guarded hptr.1, hrun'.guarded hptr.2, hP⟩

/-- The first process calls `fork`, loses the processor to its child, and gets it back. -/
theorem smallMachine_forked : ∃ a ls b ks c, Boots smallCode smallMem a ∧ Run (UserStep smallCode) a ls b ∧
    Run (UserStep smallCode) b ks c ∧ (b.kernel.current ≠ idle ∧ b.Runs b.kernel.current ∧ c.Runs b.kernel.current ∧
      ks.map Prod.fst ≠ ks.map fun _ => b.kernel.current) ∧
      ∀ act ∈ ownSteps b.kernel.current ks, act.Interrupt :=
  smallMachine_runs [.timer false, .setX 8 8, .svc] [.timer false, .timer false]
    (fun b ks c => (b.kernel.current ≠ idle ∧ b.Runs b.kernel.current ∧ c.Runs b.kernel.current ∧
      ks.map Prod.fst ≠ ks.map fun _ => b.kernel.current) ∧ ∀ act ∈ ownSteps b.kernel.current ks, act.Interrupt)
    (by decide +kernel)

/-- The steps of a process in a system call that gives back `ret`, after it has waited `n` times. -/
def callSteps (call : Syscall) (ret : Int) : Nat → List Act
  | 0 => [some (.svc call, some ret)]
  | n + 1 => some (.svc call, none) :: List.replicate n (some (.resume, none)) ++ [some (.resume, some ret)]

/-- The process has got a key after it has waited for it. -/
def gotKey (v : Int) : List Act → Bool
  | [some (.svc .keyboardRead, none), some (.resume, some ret)] => ret == v
  | _ => false

theorem gotKey_steps {v : Int} {acts : List Act} (h : gotKey v acts = true) : acts = callSteps .keyboardRead v 1 := by
  unfold gotKey at h
  split at h
  · rw [← eq_of_beq h]
    rfl
  · cases h

/-- The first process waits for a key while the idle process runs. -/
theorem smallMachine_called : ∃ a ls b ks c, Boots smallCode smallMem a ∧ Run (UserStep smallCode) a ls b ∧
    Run (UserStep smallCode) b ks c ∧ b.kernel.current ≠ idle ∧ b.Runs b.kernel.current ∧ c.Runs b.kernel.current ∧
      ownSteps b.kernel.current ks = callSteps .keyboardRead 97 1 := by
  obtain ⟨a, ls, b, ks, c, hboot, hrun, hrun', hP⟩ :=
    smallMachine_runs [.timer false, .setX 8 11, .setX 7 5] [.svc, .uart (some 97), .timer false, .resume]
      (fun b ks c => b.kernel.current ≠ idle ∧ b.Runs b.kernel.current ∧ c.Runs b.kernel.current ∧
        gotKey 97 (ownSteps b.kernel.current ks)) (by decide +kernel)
  obtain ⟨hc, hb, hruns, hkey⟩ := hP
  exact ⟨a, ls, b, ks, c, hboot, hrun, hrun', hc, hb, hruns, gotKey_steps hkey⟩

/-! ## The start -/

theorem newStack_context (L : Layout) (stack : Nat) (m : Mem) :
    contextAt (newStack L stack m) (stack + pageSize - TrapFrame.size) = .start := by
  have hsize : TrapFrame.size + 12 * 8 ≤ pageSize := by decide
  have hfields : TrapFrame.elr + 8 ≤ TrapFrame.size ∧ TrapFrame.sp0 + 8 ≤ TrapFrame.size ∧
      TrapFrame.spsr + 8 ≤ TrapFrame.size := by decide
  rw [← contextAt_startFrame ((m.fill stack pageSize 0).write 8 (stack + pageSize - TrapFrame.size - 12 * 8 + 11 * 8)
    L.trapReturn)]
  apply contextAt_congr
  intro x hle hlt
  -- both frames are zero but for the three words that are stored
  have hclear : ∀ m' : Mem, (∀ y, stack + pageSize - TrapFrame.size ≤ y → y < stack + pageSize → m' y = 0) →
      (m'.fill (stack + pageSize - TrapFrame.size) TrapFrame.size 0) = m' := by
    intro m' hzero
    funext y
    simp only [Mem.fill]
    split
    · rename_i hy
      exact (hzero y hy.1 (by omega)).symm
    · rfl
  have hzero : ∀ y, stack + pageSize - TrapFrame.size ≤ y → y < stack + pageSize →
      (m.fill stack pageSize 0).write 8 (stack + pageSize - TrapFrame.size - 12 * 8 + 11 * 8) L.trapReturn y = 0 := by
    intro y hy hend
    have hout : ¬(stack + pageSize - TrapFrame.size - 12 * 8 + 11 * 8 ≤ y ∧
        y < stack + pageSize - TrapFrame.size - 12 * 8 + 11 * 8 + 8) := by omega
    have hin : stack ≤ y ∧ y < stack + pageSize := by omega
    simp only [Mem.write, Mem.fill, if_neg hout, if_pos hin]
  rw [newStack, startFrame, hclear _ hzero]

theorem boot_current (hboot : boot L m = .ok s) : s.current = idle := by
  obtain ⟨i, q, hi, hq, hb⟩ := boot_spec hboot
  have hrun := (hq.running s.current).mpr rfl
  by_contra hne
  by_cases hcur : s.current = i
  · rw [hcur, hb.state] at hrun
    cases hrun
  · rw [hb.others _ hcur hne] at hrun
    cases hrun

theorem Started.resumable (h : Started C.toLayout s xs p) (calls : Proc → Call) (parked : Proc → Option SwapCall) :
    Resumable C s calls parked p := by
  have hp := (h.isUser p).mpr rfl
  have hsize : TrapFrame.size + 12 * 8 ≤ pageSize := by decide
  have hbase := Kernel.stackBase_user (s := s) hp.1
  have htop := Kernel.stackTop_user (s := s) hp.1
  have hcontext := h.context
  obtain ⟨m₀, hm⟩ := h.kernelStack
  refine .fresh h.kont ?_ ?_ ?_
  · rw [htop, hcontext, Kernel.pageOf]
    omega
  · rw [hbase, hcontext, Kernel.pageOf]
    omega
  · have hread : s.memory.mem.read 8 ((s.proc p).context + 11 * 8) = C.trapReturn := by
      rw [hcontext, ← newStack_x30 C.toLayout (s.proc p).stack m₀]
      apply Mem.read_congr
      exact hm.sub (by omega) (by omega)
    rw [word, hread]

theorem Started.view (h : Started C.toLayout s xs p) : s.view p = ⟨.start, (s.view p).page, false⟩ := by
  have hp := (h.isUser p).mpr rfl
  obtain ⟨m₀, hm⟩ := h.kernelStack
  have hsize : TrapFrame.size ≤ pageSize := by decide
  apply UserView.ext
  · have htop : s.stackTop p = (s.proc p).stack + pageSize := Kernel.stackTop_user hp.1
    show contextAt s.memory.mem (s.stackTop p - TrapFrame.size) = .start
    rw [htop, ← newStack_context C.toLayout (s.proc p).stack m₀]
    exact contextAt_congr (hm.sub (by omega) (by omega))
  · rfl
  · simp [Kernel.view, h.kont]

theorem Boots.inv (hboot : Boots C m a) (hfits : InitFits m) : MachineInv C a := by
  obtain ⟨xs, i, h⟩ := boot_started hboot.kernel hfits
  have hgood := good_of_boot hboot.kernel
  have hcurrent := boot_current hboot.kernel
  have hret : ¬a.kernel.inKernel := by
    rw [Kernel.inKernel, hcurrent]
    exact fun hin => hin hgood.procs.kontIdle
  refine ⟨hgood, ⟨xs, h.inv⟩, fun p hp hne => ?_, fun _ => ?_, fun hin => absurd hin hret⟩
  · obtain rfl := (h.isUser p).mp ⟨hcurrent ▸ hne, hp.1⟩
    exact h.resumable a.calls a.parked
  · rw [hcurrent, Kernel.stackTop_idle]
    exact hboot.sp

/-- The first process is the only one, and it is at its start. -/
theorem Boots.views (hboot : Boots C m a) (hfits : InitFits m) :
    ∃ i page, a.views = Function.update (fun _ => none) i (some ⟨.start, page, false⟩) := by
  obtain ⟨xs, i, h⟩ := boot_started hboot.kernel hfits
  have hcurrent := boot_current hboot.kernel
  have hi := (h.isUser i).mpr rfl
  have halive : a.kernel.Alive i := by
    obtain ⟨j, q, hj, hq, hb⟩ := boot_spec hboot.kernel
    obtain rfl := ((hb.live hq i).mp hi.2).resolve_right hi.1
    rw [Kernel.Alive, hb.state]
    decide
  refine ⟨i, (a.kernel.view i).page, ?_⟩
  funext p
  cases eq_or_ne p i with
  | inl hp =>
      subst hp
      rw [Function.update_self, Machine.views_other (hcurrent ▸ hi.1), Kernel.views_alive hi.1 halive, ← h.view]
  | inr hp =>
      rw [Function.update_of_ne hp]
      have hnot : ¬(p ≠ idle ∧ a.kernel.Alive p) := fun hp' => hp ((h.isUser p).mp ⟨hp'.1, hp'.2.1⟩)
      exact if_neg hnot

/-! ## Over a run -/

theorem reaches_machineInv (hboot : Boots C m a) (hfits : InitFits m) (h : Run (UserStep C) a ls b) : MachineInv C b :=
  h.invariant (hboot.inv hfits) fun _ _ _ hinv hl => (hl.2.keeps hinv hl.1).1

theorem MachineInv.runs_view (h : MachineInv C b) (hp : p ≠ idle) (hb : b.Runs p) :
    b.views p = some ⟨b.context, (b.kernel.view p).page, false⟩ := by
  obtain ⟨rfl, hret⟩ := hb
  exact Machine.views_current h.good hp hret

/-- The invariant leads from step to step. -/
theorem family_of_run (hinv : MachineInv C a) (h : Run (UserStep C) a ls b) :
    FamilyRun UserView.Step UserView.Child a.views ls b.views :=
  (h.map Machine.views hinv fun _ _ _ hI hl => hl.2.keeps hI hl.1).2

theorem Good.idle_alive (hs : Good s) : s.Alive idle := by
  obtain ⟨q, lost, hq⟩ := hs.sched
  cases hq.idleState with
  | inl hrunning =>
      rw [Kernel.Alive, hrunning]
      decide
  | inr hready =>
      rw [Kernel.Alive, hready]
      decide

namespace MachineInv

/-- The page map and the kernel stack of the process that runs its own code. -/
theorem installed (h : MachineInv C b) (hp : p ≠ idle) (hb : b.Runs p) :
    b.kernel.ttbr0 = v2p (b.kernel.proc p).pageMap ∧ b.cpu.sp.toNat = (b.kernel.proc p).stack + pageSize := by
  obtain ⟨q, lost, hq⟩ := h.good.sched
  obtain ⟨rfl, hret⟩ := hb
  exact ⟨hq.ttbr0, (h.own hret).trans (Kernel.stackTop_user hp)⟩

/-- An exception stores its registers to its trap frame. -/
theorem entered {handler : List Instr} (esr : Word) (h : MachineInv C b) (hp : p ≠ idle) (hb : b.Runs p)
    (hhandler : handler = syncHandler ∨ handler = irqHandler) :
    ((b.enter handler esr).1.x 0).toNat = (b.kernel.proc p).tf ∧
      contextAt (b.enter handler esr).2 (b.kernel.proc p).tf = b.context ∧
      ∀ x, x < (b.kernel.proc p).tf ∨ (b.kernel.proc p).tf + TrapFrame.size ≤ x →
        (b.enter handler esr).2 x = b.kernel.memory.mem x := by
  obtain ⟨xs, hpages⟩ := h.pages
  obtain ⟨rfl, hret⟩ := hb
  have htrapped : Trapped b (b.enter handler esr) := Machine.enter_trapped hpages h.good (h.own hret) hhandler rfl
  obtain ⟨hsp, hx0, houtside, hcontext⟩ := htrapped
  have htf : (b.kernel.proc b.kernel.current).tf = (b.enter handler esr).1.sp.toNat := by
    rw [h.good.tf_top ⟨hp, h.good.live⟩, ← hsp, Nat.add_sub_cancel]
  rw [htf]
  exact ⟨hx0, hcontext, fun x hx => houtside x (hsp ▸ hx)⟩

end MachineInv

theorem UserView.Step.interrupt_still {v : UserView} {act : Act} {w : Option UserView} (hact : act.Interrupt)
    (h : UserView.Step v act w) : w = some v := by
  obtain ⟨e, he, hev⟩ := hact
  cases h with
  | timer => rfl
  | uart => rfl
  | waitsOn => rfl
  | own => cases he
  | store | fault | exits | waits | returns | exec | resumes =>
      cases he
      cases hev

theorem MachineInv.run (h : MachineInv C b) (hrun : Run (UserStep C) b ks c) : MachineInv C c :=
  hrun.invariant h fun _ _ _ hI hl => (hl.2.keeps hI hl.1).1

theorem MachineInv.interrupted (h : MachineInv C b) (hrun : Run (UserStep C) b ks c) (hp : p ≠ idle) (hb : b.Runs p)
    (hc : c.Runs p) (hown : ∀ act ∈ ownSteps p ks, act.Interrupt) :
    c.context = b.context ∧ (c.kernel.view p).page = (b.kernel.view p).page := by
  have hstill : c.views p = some ⟨b.context, (b.kernel.view p).page, false⟩ :=
    (family_of_run h hrun).still (P := Act.Interrupt) (h.runs_view hp hb)
      (fun _ _ hact hstep => hstep.interrupt_still hact) hown
  have hview := ((h.run hrun).runs_view hp hc).symm.trans hstill
  simp only [Option.some.injEq, UserView.mk.injEq, and_true] at hview
  exact hview

theorem UserView.waiting {call : Syscall} {n : Nat} {v w : UserView} (hv : v.calling = false)
    (h : OwnRun UserView.Step v (some (.svc call, none) :: List.replicate n (some (.resume, none))) w) :
    w = ⟨v.context, v.page, true⟩ := by
  induction n generalizing w with
  | zero =>
      have h : OwnRun UserView.Step v ([] ++ [some (.svc call, none)]) w := h
      obtain ⟨u, hnil, hstep⟩ := h.of_snoc
      obtain rfl := hnil.of_nil
      cases hstep
      rfl
  | succ n ih =>
      rw [List.replicate_succ', ← List.cons_append] at h
      obtain ⟨u, hrun, hstep⟩ := h.of_snoc
      obtain rfl := ih hrun
      cases hstep
      rfl

/-- The private machine in a system call that cannot end the process. -/
theorem UserView.called {call : Syscall} {ret : Int} {n : Nat} {v w : UserView} (hv : v.calling = false)
    (hends : ¬call.effects.ends) (h : OwnRun UserView.Step v (callSteps call ret n) w) :
    w.context = v.context.setX0 ret ∧ (¬call.effects.writes .frame → w.page = v.page) := by
  cases n with
  | zero =>
      have h : OwnRun UserView.Step v ([] ++ [some (.svc call, some ret)]) w := h
      obtain ⟨u, hnil, hstep⟩ := h.of_snoc
      obtain rfl := hnil.of_nil
      cases hstep with
      | returns hstack hframe => exact ⟨rfl, hframe⟩
      | exec => exact absurd trivial hends
  | succ n =>
      obtain ⟨u, hrun, hstep⟩ := Run.of_snoc h
      obtain rfl := UserView.waiting hv hrun
      cases hstep
      exact ⟨rfl, fun _ => rfl⟩

theorem callSteps_lives {call : Syscall} {ret : Int} {n : Nat} {act : Act} {v : UserView} (hends : ¬call.effects.ends)
    (hact : act ∈ callSteps call ret n) : ¬UserView.Step v act none := by
  intro hstep
  have hcases : act = some (.svc call, none) ∨ act = some (.svc call, some ret) ∨ act = some (.resume, none) ∨
      act = some (.resume, some ret) := by
    cases n with
    | zero => simpa [callSteps] using .inr (.inl (List.mem_singleton.mp hact))
    | succ n =>
        simp only [callSteps, List.cons_append, List.mem_cons, List.mem_append, List.mem_replicate, List.not_mem_nil,
          or_false] at hact
        obtain hact | ⟨-, hact⟩ | hact := hact <;> simp [hact]
  cases hstep with
  | fault => simp at hcases
  | exits hcall =>
      obtain rfl : _ = call := by simpa using hcases
      exact hends hcall

theorem MachineInv.called {call : Syscall} {ret : Int} {n : Nat} (h : MachineInv C b) (hrun : Run (UserStep C) b ks c)
    (hp : p ≠ idle) (hb : b.Runs p) (hc : c.Runs p) (hown : ownSteps p ks = callSteps call ret n)
    (hends : ¬call.effects.ends) :
    c.context = b.context.setX0 ret ∧
      (¬call.effects.writes .frame → (c.kernel.view p).page = (b.kernel.view p).page) := by
  obtain ⟨v, hv, hown'⟩ := (family_of_run h hrun).ownRun (h.runs_view hp hb) fun act hact v =>
    callSteps_lives hends (hown ▸ hact)
  obtain rfl := Option.some.inj (((h.run hrun).runs_view hp hc).symm.trans hv)
  rw [hown] at hown'
  exact UserView.called rfl hends hown'

/-- Where the trap frame of the first process of the small machine is. -/
def smallFrame : Nat := heapMemoryEnd - 2 * pageSize - TrapFrame.size

/-- The process has read four bytes of its file 0 to the buffer. -/
def gotRead (buffer : Nat) : List Act → Bool
  | [some (.svc (.readFile fd dst size), some ret)] => fd == 0 && dst == buffer && size == 4 && ret == 4
  | _ => false

theorem gotRead_steps {buffer : Nat} {acts : List Act} (h : gotRead buffer acts = true) :
    acts = callSteps (.readFile 0 buffer 4) 4 0 := by
  unfold gotRead at h
  split at h
  · simp only [Bool.and_eq_true, beq_iff_eq] at h
    obtain ⟨⟨⟨rfl, rfl⟩, rfl⟩, rfl⟩ := h
    rfl
  · cases h

end ArmOs
