import Mathlib.Data.Fintype.Pi
import ArmOs.Kernel.Accesses
import ArmOs.Lib.El1

/-!
# Context switches (`vector_table.s`, `switch_process`)

The processor under the kernel: the code that saves and restores a process, and `swap`. Between them runs C code, which
keeps to the procedure-call standard. It gives back the stack pointer and `x19` to `x29` as it got them, and besides
what the functions of the kernel do it stores to its part of the kernel stack only. If `swap` gives back to it anything
else than it had, there is no saying what follows.
-/

namespace ArmOs

open Lib El1

/-! ## `vector_table.s` -/

def kernelEntry : List Instr :=
  [.subSp (36 * 8),
    .stp 0 1 0,
    .stp 2 3 (16 * 1),
    .stp 4 5 (16 * 2),
    .stp 6 7 (16 * 3),
    .stp 8 9 (16 * 4),
    .stp 10 11 (16 * 5),
    .stp 12 13 (16 * 6),
    .stp 14 15 (16 * 7),
    .stp 16 17 (16 * 8),
    .stp 18 19 (16 * 9),
    .stp 20 21 (16 * 10),
    .stp 22 23 (16 * 11),
    .stp 24 25 (16 * 12),
    .stp 26 27 (16 * 13),
    .stp 28 29 (16 * 14),
    .mrs 0 .spEl0,
    .stp 30 0 (16 * 15)]

/-- `kernel_exit`, up to `eret`. -/
def kernelExit : List Instr :=
  [.ldp 30 0 (16 * 15),
    .msr .spEl0 0,
    .ldp 0 1 0,
    .ldp 2 3 (16 * 1),
    .ldp 4 5 (16 * 2),
    .ldp 6 7 (16 * 3),
    .ldp 8 9 (16 * 4),
    .ldp 10 11 (16 * 5),
    .ldp 12 13 (16 * 6),
    .ldp 14 15 (16 * 7),
    .ldp 16 17 (16 * 8),
    .ldp 18 19 (16 * 9),
    .ldp 20 21 (16 * 10),
    .ldp 22 23 (16 * 11),
    .ldp 24 25 (16 * 12),
    .ldp 26 27 (16 * 13),
    .ldp 28 29 (16 * 14),
    .addSp (36 * 8)]

/-- `handler_entry`, up to `bl exception_handler`. -/
def handlerEntry : List Instr :=
  [.mrs 1 .esrEl1,
    .stp 0 1 (16 * 16),
    .mrs 0 .elrEl1,
    .mrs 1 .spsrEl1,
    .stp 0 1 (16 * 17),
    .movSp 0]

def trapReturn : List Instr :=
  [.ldp 0 1 (16 * 17),
    .msr .elrEl1 0,
    .msr .spsrEl1 1] ++ kernelExit

def syncHandler : List Instr :=
  kernelEntry ++
    [.mrs 0 .esrEl1,
      .lsr 1 0 26,
      .cmpImm 1 0b010101,
      .movImm 2 1,
      .movImm 3 3,
      .cselNe 0 2 3] ++ handlerEntry

def irqHandler : List Instr := kernelEntry ++ [.movImm 0 2] ++ handlerEntry

/-- `swap`, up to `str x2, [x0]`. -/
def swapSave : List Instr :=
  [.subSp (12 * 8),
    .stp 19 20 (16 * 0),
    .stp 21 22 (16 * 1),
    .stp 23 24 (16 * 2),
    .stp 25 26 (16 * 3),
    .stp 27 28 (16 * 4),
    .stp 29 30 (16 * 5),
    .movSp 2]

/-- `swap`, from `mov sp, x1` up to `ret`. -/
def swapLoad : List Instr :=
  [.setSp 1,
    .ldp 19 20 (16 * 0),
    .ldp 21 22 (16 * 1),
    .ldp 23 24 (16 * 2),
    .ldp 25 26 (16 * 3),
    .ldp 27 28 (16 * 4),
    .ldp 29 30 (16 * 5),
    .addSp (12 * 8)]

/-! ## The machine -/

/-- The end of the stack of the boot code, which the idle process keeps. -/
def idleTop : Nat := kernelBase + 0x80000

/-- The layout, and the address behind `bl swap` in `switch_process`. -/
structure Code extends Layout where
  swapReturn : Word
  swapReturn_ne : swapReturn ≠ BitVec.ofNat 64 trapReturn
  idleTop_le : idleTop ≤ imageEnd

/-- What the code of a process sees of the processor. -/
@[ext] structure Context where
  x : Reg → Word
  spEl0 : Word
  pc : Word
  pstate : Word
  deriving DecidableEq

/-- The context that `trap_return` makes of the trap frame at `tf`. -/
def contextAt (m : Mem) (tf : Nat) : Context where
  x i := word m (tf + TrapFrame.x i)
  spEl0 := word m (tf + TrapFrame.sp0)
  pc := word m (tf + TrapFrame.elr)
  pstate := word m (tf + TrapFrame.spsr)

/-- `x19` to `x29`. -/
def calleeSaved (c : Cpu) : Fin 11 → Word := fun i => c.x ⟨19 + i, by omega⟩

/-- A call of `exception_handler`: what the C code has to give back. -/
structure Call where
  sp : Word
  saved : Fin 11 → Word

/-- A call of `swap`: what the C code counts on when it goes on. -/
structure SwapCall where
  sp : Word
  saved : Fin 11 → Word
  mem : Mem

/-- The kernel and the processor. While the current process runs its own code, `pc` and `pstate` are its own. -/
structure Machine where
  kernel : Kernel
  cpu : Cpu
  pc : Word
  pstate : Word
  calls : Proc → Call
  parked : Proc → Option SwapCall

namespace Kernel

variable (s : Kernel) (p : Proc)

/-- Where the kernel stack of a process begins and ends. -/
def stackBase : Nat := if p = idle then kernelBase else (s.proc p).stack

def stackTop : Nat := if p = idle then idleTop else (s.proc p).stack + pageSize

/-- A process that has not exited. -/
def Alive : Prop := (s.proc p).state ≠ .unused ∧ (s.proc p).state ≠ .killed

instance : DecidablePred s.Alive := fun p =>
  inferInstanceAs (Decidable ((s.proc p).state ≠ .unused ∧ (s.proc p).state ≠ .killed))

/-- `p->context = context`. -/
def setContext (context : Nat) : Kernel := s.setProc p { s.proc p with context := context }

/-- `m` is the memory of `s` after C code of the process has stored to its kernel stack below `top`. -/
def Scribbled (top : Nat) (m : Mem) : Prop := ∀ x, x < s.stackBase p ∨ top ≤ x → m x = s.memory.mem x

end Kernel

/-- The C code returns from the call. -/
def Call.Returns (call : Call) (c : Cpu) : Prop := c.sp = call.sp ∧ calleeSaved c = call.saved

/-- `swap` has given back what the C code had, with the part of the stack below `top` that is its own. -/
def SwapCall.Restored (r : SwapCall) (top : Nat) (c : Cpu) (m : Mem) : Prop :=
  c.sp = r.sp ∧ calleeSaved c = r.saved ∧ ∀ x, r.sp.toNat ≤ x → x < top → m x = r.mem x

namespace Machine

variable (a : Machine)

def context : Context := ⟨a.cpu.x, a.cpu.sys .spEl0, a.pc, a.pstate⟩

/-- The process runs its own code. -/
def Runs (p : Proc) : Prop := a.kernel.current = p ∧ ¬a.kernel.inKernel

instance : DecidablePred a.Runs := fun p => inferInstanceAs (Decidable (a.kernel.current = p ∧ ¬a.kernel.inKernel))

/-- An exception, up to the call of `exception_handler`. -/
def enter (handler : List Instr) (esr : Word) : Cpu × Mem :=
  run handler
    (((a.cpu.setSys .elrEl1 a.pc).setSys .spsrEl1 a.pstate).setSys .esrEl1 esr, a.kernel.memory.mem)

end Machine

/-- `trap_return`. -/
def leave (s : Kernel) (calls : Proc → Call) (parked : Proc → Option SwapCall) (c : Cpu) (m : Mem) : Machine :=
  let r := run trapReturn (c, m)
  { kernel := s.setMem r.2, cpu := r.1, pc := r.1.sys .elrEl1, pstate := r.1.sys .spsrEl1, calls, parked }

/-- The register `i` in the trap frame at `tf`. -/
def frameX (m : Mem) (tf : Nat) (i : Reg) : Word := word m (tf + TrapFrame.x i)

/-- The event for which `exception_handler` finds the trap frame at `tf`; the system call is the one that the registers
ask for. -/
def Handles (s : Kernel) (tf : Nat) : Event → Prop
  | .timer _ | .uart _ => word s.memory.mem (tf + TrapFrame.trapno) = 2
  | .svc call => word s.memory.mem (tf + TrapFrame.trapno) = 3 ∧
      decode s (frameX s.memory.mem tf 0) (frameX s.memory.mem tf 1) (frameX s.memory.mem tf 8) = .ok call
  | .fault => word s.memory.mem (tf + TrapFrame.trapno) = 1 ∧ word s.memory.mem (tf + TrapFrame.spsr) &&& 0xf = 0
  | _ => False

/-! ## Steps -/

/-- What a process does: it runs its own code, or it handles an event, with the value of the system call that returns. -/
abbrev Act := Option (Event × Option Int)

section

variable (C : Code)

/-- After the `ret` of `swap`, with the stack and the registers `c` of the process that goes on. -/
inductive GoesOn (s : Kernel) (calls : Proc → Call) (parked : Proc → Option SwapCall) (c : Cpu) : Machine → Prop
  /-- To `trap_return`. -/
  | first : c.x 30 = BitVec.ofNat 64 C.trapReturn → GoesOn s calls parked c (leave s calls parked c s.memory.mem)
  /-- To `switch_process`, and its callers return to `trap_return`. -/
  | returns {r : SwapCall} {c' : Cpu} {m : Mem} : c.x 30 = C.swapReturn → parked s.current = some r →
      r.Restored (calls s.current).sp.toNat c s.memory.mem → ¬s.inKernel → (calls s.current).Returns c' →
      s.Scribbled s.current (calls s.current).sp.toNat m → GoesOn s calls parked c (leave s calls parked c' m)
  /-- To `switch_process`, and its callers go on in a system call. -/
  | inside {r : SwapCall} {a : Machine} : c.x 30 = C.swapReturn → parked s.current = some r →
      r.Restored (calls s.current).sp.toNat c s.memory.mem → s.inKernel → a.kernel = s → a.calls = calls →
      a.parked = parked → GoesOn s calls parked c a
  /-- To anywhere else, or with anything else. -/
  | undefined {a : Machine} : c.x 30 ≠ BitVec.ofNat 64 C.trapReturn →
      ¬(c.x 30 = C.swapReturn ∧ ∃ r, parked s.current = some r ∧
        r.Restored (calls s.current).sp.toNat c s.memory.mem) → GoesOn s calls parked c a

/-- The process calls `swap` with the registers `c` and the memory `m`. -/
def swapped (p : Proc) (s : Kernel) (c : Cpu) (m : Mem) : Kernel × Cpu :=
  let r := run swapSave (c, m)
  ((s.setMem r.2).setContext p (r.1.x 2).toNat, (run swapLoad r).1)

/-- The C code of `p` has run and left the kernel in the state `s`. -/
inductive TurnEnds (p : Proc) (s : Kernel) (calls : Proc → Call) (parked : Proc → Option SwapCall) : Machine → Prop
  | returns {c : Cpu} {m : Mem} : s.current = p → (calls p).Returns c → s.Scribbled p (calls p).sp.toNat m →
      TurnEnds p s calls parked (leave s calls parked c m)
  | switches {c : Cpu} {m : Mem} {a : Machine} : s.current ≠ p → s.Scribbled p (calls p).sp.toNat m →
      s.stackBase p + 12 * 8 ≤ c.sp.toNat → c.sp.toNat ≤ (calls p).sp.toNat → c.x 30 = C.swapReturn →
      c.x 1 = BitVec.ofNat 64 (s.proc s.current).context →
      GoesOn C (swapped p s c m).1 calls (Function.update parked p (some ⟨c.sp, calleeSaved c, m⟩)) (swapped p s c m).2 a →
      TurnEnds p s calls parked a

inductive MachineStep (a : Machine) : Proc × Act → Machine → Prop
  /-- A user process runs its own code. -/
  | own {c : Cpu} {pc pstate : Word} : a.kernel.current ≠ idle → ¬a.kernel.inKernel → c.sp = a.cpu.sp →
      MachineStep a (a.kernel.current, none) { a with cpu := c, pc, pstate }
  /-- A user process stores a byte. -/
  | store {va : Nat} {b : UInt8} {t : Kernel} : Step C.toLayout a.kernel ⟨a.kernel.current, .store va b, none⟩ t →
      t.current = a.kernel.current →
      MachineStep a (a.kernel.current, some (.store va b, none)) { a with kernel := t }
  /-- An exception in the code of the current process. -/
  | trap {handler : List Instr} {esr : Word} {ev : Event} {ret : Option Int} {e : Cpu × Mem} {t : Kernel} {b : Machine} :
      handler = syncHandler ∨ handler = irqHandler → a.enter handler esr = e →
      Handles (a.kernel.setMem e.2) (e.1.x 0).toNat ev → Enabled (a.kernel.setMem e.2) ev →
      exceptionHandler C.toLayout (e.1.x 0).toNat ev (a.kernel.setMem e.2) = .ok (ret, t) →
      TurnEnds C a.kernel.current t
        (Function.update a.calls a.kernel.current ⟨e.1.sp, calleeSaved e.1⟩) a.parked b →
      MachineStep a (a.kernel.current, some (ev, ret)) b
  /-- The current process goes on in a system call. -/
  | resume {ret : Option Int} {t : Kernel} {b : Machine} :
      Step C.toLayout a.kernel ⟨a.kernel.current, .resume, ret⟩ t → TurnEnds C a.kernel.current t a.calls a.parked b →
      MachineStep a (a.kernel.current, some (.resume, ret)) b

/-- The idle loop at the end of `boot.s`, after `kernel_main` has returned. -/
structure Boots (m : Mem) (a : Machine) : Prop where
  kernel : boot C.toLayout m = .ok a.kernel
  sp : a.cpu.sp.toNat = idleTop

end

/-! ## Running exceptions -/

section

variable (C : Code)

/-- The registers with which C code returns from the call, or calls `swap` at once. -/
def Call.cpu (call : Call) (x1 x30 : Word) : Cpu where
  x i := if h : 19 ≤ i.val ∧ i.val < 30 then call.saved ⟨i.val - 19, by omega⟩ else if i = 30 then x30 else x1
  sp := call.sp
  sys _ := 0
  z := false

/-- `GoesOn`, when `swap` was called with an empty stack and C code stores nothing to it. -/
def goOn (s : Kernel) (calls : Proc → Call) (parked : Proc → Option SwapCall) (c : Cpu) : Option Machine :=
  if c.x 30 = BitVec.ofNat 64 C.trapReturn then
    some (leave s calls parked c s.memory.mem)
  else
    match parked s.current with
    | none => none
    | some r =>
        if c.x 30 = C.swapReturn ∧ c.sp = r.sp ∧ calleeSaved c = r.saved ∧ r.sp = (calls s.current).sp then
          if s.inKernel then
            some { kernel := s, cpu := c, pc := 0, pstate := 0, calls, parked }
          else
            some (leave s calls parked ((calls s.current).cpu 0 0) s.memory.mem)
        else
          none

/-- `TurnEnds`, when C code stores nothing to the stack. -/
def endTurn (p : Proc) (s : Kernel) (calls : Proc → Call) (parked : Proc → Option SwapCall) : Option Machine :=
  if s.current = p then
    some (leave s calls parked ((calls p).cpu 0 0) s.memory.mem)
  else if s.stackBase p + 12 * 8 ≤ (calls p).sp.toNat then
    let c := (calls p).cpu (BitVec.ofNat 64 (s.proc s.current).context) C.swapReturn
    let (t, c') := swapped p s c s.memory.mem
    goOn C t calls (Function.update parked p (some ⟨c.sp, calleeSaved c, s.memory.mem⟩)) c'
  else
    none

/-- What may come next: code of the process sets a register, there is an exception, or the kernel goes on. -/
inductive Cause
  | setX (d : Reg) (v : Word)
  | timer (istatus : Bool)
  | uart (ch : Option UInt8)
  | svc
  | fault
  | resume

/-- The event that the trap frame at `tf` has of an exception. -/
def eventOf (s : Kernel) (tf : Nat) : Cause → Option Event
  | .timer istatus => if word s.memory.mem (tf + TrapFrame.trapno) = 2 then some (.timer istatus) else none
  | .uart ch => if word s.memory.mem (tf + TrapFrame.trapno) = 2 then some (.uart ch) else none
  | .svc =>
      if word s.memory.mem (tf + TrapFrame.trapno) = 3 then
        match decode s (frameX s.memory.mem tf 0) (frameX s.memory.mem tf 1) (frameX s.memory.mem tf 8) with
        | .ok call => some (.svc call)
        | .error _ => none
      else
        none
  | .fault =>
      if word s.memory.mem (tf + TrapFrame.trapno) = 1 ∧ word s.memory.mem (tf + TrapFrame.spsr) &&& 0xf = 0 then
        some .fault
      else
        none
  | _ => none

/-- The exception class of `svc`. -/
def esrSvc : Word := 0b010101 <<< 26

/-- The handler and the syndrome of an exception. -/
def vectorOf : Cause → List Instr × Word
  | .timer _ | .uart _ => (irqHandler, 0)
  | .svc => (syncHandler, esrSvc)
  | _ => (syncHandler, 0)

/-- An exception, up to the code of the process that goes on. -/
def trapOn (a : Machine) (cause : Cause) : Option ((Proc × Act) × Machine) := do
  let e := a.enter (vectorOf cause).1 (vectorOf cause).2
  let s := a.kernel.setMem e.2
  let tf := (e.1.x 0).toNat
  let event ← eventOf s tf cause
  if Enabled s event then
    match exceptionHandler C.toLayout tf event s with
    | .ok (ret, t) => do
        let calls := Function.update a.calls a.kernel.current ⟨e.1.sp, calleeSaved e.1⟩
        let b ← endTurn C a.kernel.current t calls a.parked
        some ((a.kernel.current, some (event, ret)), b)
    | .error _ => none
  else
    none

def Machine.perform (a : Machine) : Cause → Option ((Proc × Act) × Machine)
  | .setX d v =>
      if a.kernel.current ≠ idle ∧ ¬a.kernel.inKernel then
        some ((a.kernel.current, none), { a with cpu := a.cpu.set d v })
      else
        none
  | .resume =>
      match ArmOs.perform C.toLayout a.kernel .resume with
      | some (l, t) => do
          let b ← endTurn C a.kernel.current t a.calls a.parked
          some ((a.kernel.current, some (.resume, l.ret)), b)
      | none => none
  | cause => trapOn C a cause

def Machine.performAll (a : Machine) : List Cause → Option (List (Proc × Act) × Machine)
  | [] => some ([], a)
  | cause :: causes => do
      let (l, b) ← a.perform C cause
      let (ls, c) ← b.performAll causes
      return (l :: ls, c)

variable {C}
variable {s t : Kernel} {p : Proc} {calls : Proc → Call} {parked : Proc → Option SwapCall} {c : Cpu} {a b : Machine}
  {cause : Cause} {event : Event} {tf : Nat} {l : Proc × Act}

theorem Call.cpu_saved (call : Call) (x1 x30 : Word) : calleeSaved (call.cpu x1 x30) = call.saved := by
  funext i
  have hi : 19 ≤ 19 + i.val ∧ 19 + i.val < 30 := by omega
  simp only [calleeSaved, Call.cpu, hi, and_self, dif_pos]
  congr
  omega

theorem goOn_goesOn (h : goOn C s calls parked c = some b) : GoesOn C s calls parked c b := by
  unfold goOn at h
  split at h
  · rename_i hlr
    cases h
    exact .first hlr
  · split at h
    · cases h
    · rename_i r hr
      split at h
      · rename_i hlr
        obtain ⟨hlr, hsp, hsaved, htop⟩ := hlr
        have hrestored : r.Restored (calls s.current).sp.toNat c s.memory.mem :=
          ⟨hsp, hsaved, fun x hx hlt => absurd hlt (Nat.not_lt.mpr (htop ▸ hx))⟩
        split at h
        · rename_i hin
          cases h
          exact .inside hlr hr hrestored hin rfl rfl rfl
        · rename_i hret
          cases h
          exact .returns hlr hr hrestored hret ⟨rfl, Call.cpu_saved _ _ _⟩ fun _ _ => rfl
      · cases h

theorem endTurn_ends (h : endTurn C p s calls parked = some b) : TurnEnds C p s calls parked b := by
  unfold endTurn at h
  split at h
  · rename_i hcur
    cases h
    exact .returns hcur ⟨rfl, Call.cpu_saved _ _ _⟩ fun _ _ => rfl
  · rename_i hne
    split at h
    · rename_i hroom
      exact .switches hne (fun _ _ => rfl) hroom (Nat.le_refl _) rfl rfl (goOn_goesOn h)
    · cases h

theorem eventOf_handles (h : eventOf s tf cause = some event) : Handles s tf event := by
  unfold eventOf at h
  split at h
  · split at h
    · rename_i hno
      cases h
      exact hno
    · cases h
  · split at h
    · rename_i hno
      cases h
      exact hno
    · cases h
  · split at h
    · rename_i hno
      split at h
      · rename_i call hcall
        cases h
        exact ⟨hno, hcall⟩
      · cases h
    · cases h
  · split at h
    · rename_i hno
      cases h
      exact hno
    · cases h
  · cases h

theorem trapOn_step (h : trapOn C a cause = some (l, b)) : MachineStep C a l b := by
  obtain ⟨event, hevent, h⟩ := Option.bind_eq_some_iff.mp h
  obtain ⟨hen, h⟩ := Option.ite_none_right_eq_some.mp h
  split at h
  · rename_i ret t hrun
    obtain ⟨b', hends, h⟩ := Option.bind_eq_some_iff.mp h
    cases h
    have hvector : (vectorOf cause).1 = syncHandler ∨ (vectorOf cause).1 = irqHandler := by
      cases cause <;> simp [vectorOf]
    exact .trap hvector rfl (eventOf_handles hevent) hen hrun (endTurn_ends hends)
  · cases h

theorem Machine.perform_step (h : a.perform C cause = some (l, b)) : MachineStep C a l b := by
  cases cause with
  | setX d v =>
      obtain ⟨⟨hc, hret⟩, h⟩ := Option.ite_none_right_eq_some.mp h
      cases h
      exact .own hc hret rfl
  | resume =>
      dsimp only [Machine.perform] at h
      split at h
      · rename_i k t hperform
        obtain ⟨b', hends, h⟩ := Option.bind_eq_some_iff.mp h
        cases h
        have hevent := perform_event hperform
        have hstep := perform_step hperform
        obtain ⟨hactor, -, -⟩ := id hstep
        cases k with
        | mk actor event ret =>
            cases hevent
            cases hactor
            exact .resume hstep (endTurn_ends hends)
      · cases h
  | timer istatus => exact trapOn_step h
  | uart ch => exact trapOn_step h
  | svc => exact trapOn_step h
  | fault => exact trapOn_step h

theorem Machine.performAll_run {ls : List (Proc × Act)} {causes : List Cause}
    (h : a.performAll C causes = some (ls, b)) : Run (MachineStep C) a ls b := by
  induction causes generalizing a ls with
  | nil =>
      cases h
      exact .nil _
  | cons cause causes ih =>
      obtain ⟨⟨l, u⟩, hu, h⟩ := Option.bind_eq_some_iff.mp h
      obtain ⟨⟨ls', t'⟩, ht, h⟩ := Option.bind_eq_some_iff.mp h
      cases h
      exact (Run.single (Machine.perform_step hu)).append (ih ht)

end

/-! ## The small machine -/

def smallCode : Code where
  toLayout := smallLayout
  swapReturn := BitVec.ofNat 64 (kernelBase + 0x81000)
  swapReturn_ne := by decide
  idleTop_le := by decide

/-- The idle loop of the small machine. -/
def smallIdle (s : Kernel) : Machine where
  kernel := s
  cpu := ⟨fun _ => 0, BitVec.ofNat 64 idleTop, fun _ => 0, false⟩
  pc := BitVec.ofNat 64 (kernelBase + 0x82000)
  pstate := 5
  calls _ := ⟨0, fun _ => 0⟩
  parked _ := none

def smallMachine (causes : List Cause) : Option (List (Proc × Act) × Machine) :=
  (boot smallLayout smallMem).toOption.bind fun s => (smallIdle s).performAll smallCode causes

end ArmOs
