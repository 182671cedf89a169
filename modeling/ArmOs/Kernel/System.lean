import ArmOs.Kernel.Process
import ArmOs.Lib.Run

/-!
# Exceptions and system calls (`exception_handler.c`, `syscall.c`, `generic_timer.c`, `kernel.c`)

The kernel runs with interrupts masked, so it is entered only while the current process runs its own code
(the idle process: the loop at the end of `boot.s`), and a dispatched process that was asleep in a system
call continues there before anything else happens.
-/

namespace ArmOs

open Lib

/-- The system calls with their arguments, and the numbers that `system_call` rejects. -/
inductive Syscall
  | write (buffer : Nat) (size : Int)
  | sleep (ticks : Nat)
  | exit
  | wait (pid : Int)
  | openFile (path : Nat → UInt8)
  | closeFile (fd : Int)
  | getFileSize (fd : Int)
  | readFile (fd : Int) (buffer size : Nat)
  | fork
  | getpid
  | exec (path : Nat → UInt8)
  | keyboardRead
  | readRootDirectory (buffer : Nat)
  | invalid

/-- What can happen next. -/
inductive Event
  /-- A timer interrupt; is the status bit of the timer set? -/
  | timer (istatus : Bool)
  /-- An interrupt of the serial port, with the character received if there is one. -/
  | uart (ch : Option UInt8)
  /-- A synchronous exception of a user process other than a system call. -/
  | fault
  /-- A system call. -/
  | svc (call : Syscall)
  /-- A user process stores a byte. -/
  | store (va : Nat) (b : UInt8)
  /-- The current process goes on in the kernel where it went to sleep. -/
  | resume
  /-- The function `sleep` alone, for any event value. -/
  | sleep (wait : Int)
  /-- The function `wake_up` alone, for any event value. -/
  | wakeUp (wait : Int)

/-! ## Handlers -/

def timerInterruptHandler (istatus : Bool) (s : Kernel) : Except Stop Kernel :=
  if istatus then wakeUp (-1) { s with ticks := (s.ticks + 1) % 2 ^ 64 } else .ok s

def uartInterruptHandler (ch : Option UInt8) (s : Kernel) : Except Stop Kernel :=
  match ch with
  | some ch => keyboardHandler ch s
  | none => .ok s

/-- The loop of `sys_sleep`: `0` when it returns, `none` when it went to sleep. -/
def sysSleepLoop (tf oldTicks sleepTicks : Nat) (s : Kernel) : Except Stop (Option Int × Kernel) :=
  if (s.ticks + (2 ^ 64 - oldTicks)) % 2 ^ 64 < sleepTicks then do
    let self := s.current
    let s ← sleep (-1) s
    return (none, s.setKont self (.sysSleep tf oldTicks sleepTicks))
  else
    .ok (some 0, s)

variable (L : Layout)

def sysWait (tf : Nat) (pid : Int) (s : Kernel) : Except Stop (Option Int × Kernel) := do
  let (done, s) ← wait L tf pid s
  return (if done then some 0 else none, s)

/-- The handlers of `system_call`: the value for `x0`, or `none` when the handler has not returned. -/
def syscallHandler (tf : Nat) (call : Syscall) (s : Kernel) : Except Stop (Option Int × Kernel) :=
  match call with
  | .write buffer size =>
      if 0 < size then do
        let _ ← resolve s.memory.mem s.ttbr0 buffer size.toNat
        return (some size, s)
      else .ok (some size, s)
  | .sleep ticks => sysSleepLoop tf s.ticks ticks s
  | .exit => do
      let s ← exit s
      return (none, s)
  | .wait pid => sysWait L tf pid s
  | .openFile path =>
      let (fd, s) := openFile s.current path s
      .ok (some fd, s)
  | .closeFile fd => do
      let s ← closeFile s.current fd s
      return (some 0, s)
  | .getFileSize fd => do
      let size ← getFileSize s.current fd s
      return (some (int32 size), s)
  | .readFile fd buffer size => do
      let (n, s) ← readFile s.current fd buffer size s
      return (some (int32 n), s)
  | .fork => do
      let (pid, s) ← fork L s
      return (some pid, s)
  | .getpid => .ok (some (s.proc s.current).pid, s)
  | .exec path => exec s.current path s
  | .keyboardRead => do
      let (ch, s) ← readKeyBuffer tf s
      return (ch.map fun c => (c.toNat : Int), s)
  | .readRootDirectory buffer => do
      let (count, s) ← readRootDirectory buffer s
      return (some count, s)
  | .invalid => .ok (some (-1), s)

/-- `tf->x0 = ret`, when the handler has returned. -/
def returnX0 (tf : Nat) (r : Option Int × Kernel) : Option Int × Kernel :=
  match r with
  | (some ret, s) => (some ret, s.setMem (s.memory.mem.write 8 (tf + TrapFrame.x 0) (ret % 2 ^ 64).toNat))
  | (none, s) => (none, s)

def systemCall (tf : Nat) (call : Syscall) (s : Kernel) : Except Stop (Option Int × Kernel) := do
  let r ← syscallHandler L tf call s
  return returnX0 tf r

/-- The current process continues where it went to sleep, up to its next `sleep` or the end of the call. -/
def resume (s : Kernel) : Except Stop (Option Int × Kernel) :=
  let k := s.kont s.current
  let s := s.setKont s.current .ret
  match k with
  | .ret => .ok (none, s)
  | .wait tf pid => do
      let r ← sysWait L tf pid s
      return returnX0 tf r
  | .sysSleep tf oldTicks sleepTicks => do
      let r ← sysSleepLoop tf oldTicks sleepTicks s
      return returnX0 tf r
  | .readKeyBuffer tf front =>
      let (ch, s) := takeKey front s
      .ok (returnX0 tf (some ch.toNat, s))

/-- A store of user code: to its own page, or else a fault that kills the process. -/
def userStore (va : Nat) (b : UInt8) (s : Kernel) : Except Stop Kernel :=
  match if va < kernelBase then walk s.memory.mem s.ttbr0 va else none with
  | some pa => .ok (s.setMem (s.memory.mem.write 1 (p2v pa + va % pageSize) b.toNat))
  | none => exit s

/-- `exception_handler` with the trap frame `tf`, and the other ways to go on. The value is what the current
process gets in `x0`, if a system call of it returns. -/
def exceptionHandler (tf : Nat) (event : Event) (s : Kernel) : Except Stop (Option Int × Kernel) :=
  match event with
  | .timer istatus => do
      let s ← timerInterruptHandler istatus s
      let s ← yield s
      return (none, s)
  | .uart ch => do
      let s ← uartInterruptHandler ch s
      return (none, s)
  | .fault => do
      let s ← exit s
      return (none, s)
  | .svc call => systemCall L tf call s
  | .store va b => do
      let s ← userStore va b s
      return (none, s)
  | .resume => resume L s
  | .sleep wait => do
      let s ← sleep wait s
      return (none, s)
  | .wakeUp wait => do
      let s ← wakeUp wait s
      return (none, s)

/-! ## The transition system -/

/-- The current process is inside a system call. -/
def Kernel.inKernel (s : Kernel) : Prop := s.kont s.current ≠ .ret

/-- Only user processes make system calls and run user code, and nothing interrupts the kernel. -/
def Enabled (s : Kernel) : Event → Prop
  | .resume => s.inKernel
  | .timer _ | .uart _ | .wakeUp _ => ¬s.inKernel
  | .fault | .svc _ | .store _ _ | .sleep _ => ¬s.inKernel ∧ s.current ≠ idle

/-- Who did what, and what it returned. -/
structure Label where
  actor : Proc
  event : Event
  ret : Option Int

def Step (s : Kernel) (l : Label) (t : Kernel) : Prop :=
  l.actor = s.current ∧ Enabled s l.event ∧
    exceptionHandler L (s.proc s.current).tf l.event s = .ok (l.ret, t)

/-! ## Running events -/

instance : DecidablePred Kernel.inKernel := fun s : Kernel => inferInstanceAs (Decidable (s.kont s.current ≠ .ret))

instance Enabled.decidable (s : Kernel) : DecidablePred (Enabled s)
  | .resume => inferInstanceAs (Decidable s.inKernel)
  | .timer _ | .uart _ | .wakeUp _ => inferInstanceAs (Decidable ¬s.inKernel)
  | .fault | .svc _ | .store _ _ | .sleep _ => inferInstanceAs (Decidable (¬s.inKernel ∧ s.current ≠ idle))

/-- Handle the event in the current process, if it can happen and the kernel does not stop. -/
def perform (s : Kernel) (event : Event) : Option (Label × Kernel) :=
  if Enabled s event then
    match exceptionHandler L (s.proc s.current).tf event s with
    | .ok (ret, t) => some (⟨s.current, event, ret⟩, t)
    | .error _ => none
  else none

/-- Handle the events one after the other. -/
def performAll (s : Kernel) : List Event → Option (List Label × Kernel)
  | [] => some ([], s)
  | event :: events => do
      let (l, s) ← perform L s event
      let (ls, t) ← performAll s events
      return (l :: ls, t)

theorem perform_step {L : Layout} {s t : Kernel} {event : Event} {l : Label}
    (h : perform L s event = some (l, t)) : Step L s l t := by
  unfold perform at h
  split at h
  · rename_i hen
    split at h
    · rename_i hrun
      cases h
      exact ⟨rfl, hen, hrun⟩
    · cases h
  · cases h

theorem perform_event {L : Layout} {s t : Kernel} {event : Event} {l : Label}
    (h : perform L s event = some (l, t)) : l.event = event := by
  unfold perform at h
  split at h
  · split at h
    · cases h
      rfl
    · cases h
  · cases h

theorem performAll_events {L : Layout} {s t : Kernel} {events : List Event} {ls : List Label}
    (h : performAll L s events = some (ls, t)) : ls.map Label.event = events := by
  induction events generalizing s ls with
  | nil =>
      cases h
      rfl
  | cons event events ih =>
      obtain ⟨⟨l, u⟩, hu, h⟩ := Option.bind_eq_some_iff.mp h
      obtain ⟨⟨ls', t'⟩, ht, h⟩ := Option.bind_eq_some_iff.mp h
      cases h
      rw [List.map_cons, perform_event hu, ih ht]

theorem performAll_run {L : Layout} {s t : Kernel} {events : List Event} {ls : List Label}
    (h : performAll L s events = some (ls, t)) : Run (Step L) s ls t := by
  induction events generalizing s ls with
  | nil =>
      cases h
      exact .nil _
  | cons event events ih =>
      obtain ⟨⟨l, u⟩, hu, h⟩ := Option.bind_eq_some_iff.mp h
      obtain ⟨⟨ls', t'⟩, ht, h⟩ := Option.bind_eq_some_iff.mp h
      cases h
      exact (Run.single (perform_step hu)).append (ih ht)

/-- Handle the events one after the other, as long as each meets the condition. -/
def performGuarded (P : Kernel → Event → Prop) [∀ s ev, Decidable (P s ev)] (s : Kernel) :
    List Event → Option (List Label × Kernel)
  | [] => some ([], s)
  | event :: events =>
      if P s event then do
        let (l, s) ← perform L s event
        let (ls, t) ← performGuarded P s events
        return (l :: ls, t)
      else none

theorem performGuarded_run {L : Layout} {P : Kernel → Event → Prop} [∀ s ev, Decidable (P s ev)] {s t : Kernel}
    {events : List Event} {ls : List Label} (h : performGuarded L P s events = some (ls, t)) :
    Run (Guarded (fun a l => P a l.event) (Step L)) s ls t ∧ ls.map Label.event = events := by
  induction events generalizing s ls with
  | nil =>
      cases h
      exact ⟨.nil _, rfl⟩
  | cons event events ih =>
      unfold performGuarded at h
      split at h
      · rename_i hP
        obtain ⟨⟨l, u⟩, hu, h⟩ := Option.bind_eq_some_iff.mp h
        obtain ⟨⟨ls', t'⟩, ht, h⟩ := Option.bind_eq_some_iff.mp h
        cases h
        obtain ⟨hrun, hevents⟩ := ih ht
        have hev := perform_event hu
        rw [← hev] at hP
        exact ⟨(Run.single ⟨hP, perform_step hu⟩).append hrun, by rw [List.map_cons, hev, hevents]⟩
      · cases h

theorem performGuarded_all {L : Layout} {P : Kernel → Event → Prop} [∀ s ev, Decidable (P s ev)] {s t : Kernel}
    {events : List Event} {ls : List Label} (h : performGuarded L P s events = some (ls, t)) :
    performAll L s events = some (ls, t) := by
  induction events generalizing s ls with
  | nil => exact h
  | cons event events ih =>
      obtain ⟨-, h⟩ := Option.ite_none_right_eq_some.mp h
      obtain ⟨⟨l, u⟩, hu, h⟩ := Option.bind_eq_some_iff.mp h
      obtain ⟨⟨ls', t'⟩, ht, h⟩ := Option.bind_eq_some_iff.mp h
      cases h
      exact Option.bind_eq_some_iff.mpr ⟨(l, u), hu, Option.bind_eq_some_iff.mpr ⟨(ls', t), ih ht, rfl⟩⟩

/-! ## Start-up -/

/-- The statics before `kernel_main`, with memory `m`. -/
def Kernel.reset (m : Mem) : Kernel where
  processTable := fun _ => Process.zero
  pidNum := 1
  pc := ⟨idle, ⟨.null, .null⟩, ⟨.null, .null⟩, ⟨.null, .null⟩⟩
  memory := ⟨m, 0⟩
  fs := ⟨fun _ => FCB.zero, fun _ => FileDesc.zero, 0, 0⟩
  keyBuffer := KeyboardBuffer.initial
  ticks := 0
  ttbr0 := L.bootPgd
  kont := fun _ => .ret
  trace := []

/-- `kernel_main`: `init_memory`, `init_fs` and `init_process`. -/
def boot (m : Mem) : Except Stop Kernel := do
  let s := Kernel.reset L m
  let M ← initMemory L s.memory
  let s ← initFs L { s with memory := M }
  initProcess L s

/-- The states reached from the boot of an image, with the labels of the steps taken. -/
def Reaches (m : Mem) (ls : List Label) (t : Kernel) : Prop :=
  ∃ s, boot L m = .ok s ∧ Run (Step L) s ls t

/-! ## A machine that starts -/

/-- A kernel image that leaves sixteen heap pages. -/
def smallLayout : Layout where
  imageEnd := heapMemoryEnd - 16 * pageSize
  bootPgd := 0x80000
  trapReturn := kernelBase + 0x80000
  imageEnd_le := by decide
  bootPgd_lt := by decide
  bootPgd_phys := by decide
  trapReturn_lt := by decide

/-- The bytes that are not zero of a FAT16 image with one file `INIT.BIN`, by their offsets: the parameter
block, the file allocation table, the root directory and the only cluster. -/
def smallDisk : List (Nat × UInt8) :=
  [(12, 2), (13, 1), (14, 1), (16, 1), (17, 16), (22, 1), (0x1fe, 0x55), (0x1ff, 0xaa),
   (516, 0xff), (517, 0xff),
   (1024, 73), (1025, 78), (1026, 73), (1027, 84), (1028, 32), (1029, 32), (1030, 32), (1031, 32),
   (1032, 66), (1033, 73), (1034, 78), (1050, 2), (1052, 4),
   (1536, 1), (1537, 2), (1538, 3), (1539, 4)]

def smallMem : Mem := fun a => ((smallDisk.find? fun e => fsBase + e.1 = a).map (·.2)).getD 0

/-- The state after the events, if the machine starts from the image and none of them stops the kernel. -/
def smallOn (m : Mem) (events : List Event) : Option (List Label × Kernel) :=
  (boot smallLayout m).toOption.bind fun s => performAll smallLayout s events

/-- The state after the events, if the machine starts and none of them stops the kernel. -/
def small (events : List Event) : Option (List Label × Kernel) :=
  (boot smallLayout smallMem).toOption.bind fun s => performAll smallLayout s events

theorem smallOn_boot {m : Mem} {events : List Event} {ls : List Label} {t : Kernel}
    (h : smallOn m events = some (ls, t)) :
    ∃ s, boot smallLayout m = .ok s ∧ performAll smallLayout s events = some (ls, t) := by
  obtain ⟨s, hs, h⟩ := Option.bind_eq_some_iff.mp h
  exact ⟨s, toOption_eq_some.mp hs, h⟩

theorem small_boot {events : List Event} {ls : List Label} {t : Kernel} (h : small events = some (ls, t)) :
    ∃ s, boot smallLayout smallMem = .ok s ∧ performAll smallLayout s events = some (ls, t) := smallOn_boot h

theorem small_reaches {events : List Event} {ls : List Label} {t : Kernel} (h : small events = some (ls, t)) :
    Reaches smallLayout smallMem ls t := by
  obtain ⟨s, hs, h⟩ := small_boot h
  exact ⟨s, hs, performAll_run h⟩

/-- The state after the events, if each of them meets the condition as well. -/
def smallGuarded (P : Kernel → Event → Prop) [∀ s ev, Decidable (P s ev)] (events : List Event) :
    Option (List Label × Kernel) :=
  (boot smallLayout smallMem).toOption.bind fun s => performGuarded smallLayout P s events

/-- The small machine takes a run whose steps meet the condition, to a state with the property. -/
theorem smallGuarded_run {P : Kernel → Event → Prop} [∀ s ev, Decidable (P s ev)] {Q : Kernel → Prop} [DecidablePred Q]
    {events : List Event} (h : (smallGuarded P events).map (fun r => decide (Q r.2)) = some true) :
    ∃ s ls t, boot smallLayout smallMem = .ok s ∧ Run (Guarded (fun a l => P a l.event) (Step smallLayout)) s ls t ∧
      ls.map Label.event = events ∧ Q t := by
  obtain ⟨⟨ls, t⟩, hr, hQ⟩ := Option.map_eq_some_iff.mp h
  obtain ⟨s, hs, hall⟩ := Option.bind_eq_some_iff.mp hr
  obtain ⟨hrun, hevents⟩ := performGuarded_run hall
  exact ⟨s, ls, t, toOption_eq_some.mp hs, hrun, hevents, of_decide_eq_true hQ⟩

theorem Reaches.of_guarded {L : Layout} {m : Mem} {G : Kernel → Label → Prop} {s t : Kernel} {ls : List Label}
    (hboot : boot L m = .ok s) (hrun : Run (Guarded G (Step L)) s ls t) : Reaches L m ls t :=
  ⟨s, hboot, hrun.mono fun _ _ _ h => h.2⟩

end ArmOs
