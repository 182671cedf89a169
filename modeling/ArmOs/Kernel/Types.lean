import Mathlib.Data.Fin.Tuple.Basic
import Mathlib.Data.Fintype.Basic
import ArmOs.Lib.Bytes
import ArmOs.Lib.Except
import ArmOs.Lib.Search

/-!
# Data of the kernel

The structures of `process.h`, `list.h`, `fs.h`, `keyboard.h` and `memory.h`, and the state they make up.
A pointer to an entry of a static table is the index of the entry. The heap pages, the kernel stacks, the
user pages and the file-system image are bytes of one memory, at their kernel virtual addresses.
-/

namespace ArmOs

open Lib

/-! ## Constants and address arithmetic (`memory.h`) -/

def kernelBase : Nat := 0xffff000000000000

/-- `P2V`, in 64-bit arithmetic. -/
def p2v (p : Nat) : Nat := (p + kernelBase) % 2 ^ 64

/-- `V2P`, in 64-bit arithmetic. -/
def v2p (v : Nat) : Nat := (v + (2 ^ 64 - kernelBase)) % 2 ^ 64

def pageSize : Nat := 2 * 1024 * 1024

def heapMemoryEnd : Nat := p2v 0x30000000

/-- Where every user program is mapped. -/
def userBase : Nat := 0x400000

def pdeAddr (p : Nat) : Nat := p &&& 0xfffffffff000
def pteAddr (p : Nat) : Nat := p &&& 0xffffffe00000

def entryV : Nat := 1 <<< 0
def tableEntry : Nat := 1 <<< 1
def blockEntry : Nat := 0 <<< 1
def entryAccessed : Nat := 1 <<< 10
def normalMemory : Nat := 1 <<< 2
def user : Nat := 1 <<< 6

/-- The attributes of a user mapping. -/
def userAttribute : Nat := entryV ||| user ||| normalMemory ||| entryAccessed

def paUp (v : Nat) : Nat := (v + pageSize - 1) >>> 21 <<< 21
def paDown (v : Nat) : Nat := v >>> 21 <<< 21

/-- What the linker and the boot code fix: the end of the kernel image, the boot value of `ttbr0_el1` (a
table inside the image) and the address of `trap_return`. -/
structure Layout where
  imageEnd : Nat
  bootPgd : Nat
  trapReturn : Nat
  imageEnd_le : imageEnd ≤ heapMemoryEnd
  bootPgd_lt : p2v bootPgd + 0x1000 ≤ imageEnd
  bootPgd_phys : bootPgd < 0x30000000
  trapReturn_lt : trapReturn < imageEnd

/-- The value of a C `int` after an addition: two's complement in 32 bits. -/
def int32 (x : Int) : Int := (x + 2 ^ 31) % 2 ^ 32 - 2 ^ 31

/-! ## Trap frames (`exception_handler.h`) -/

namespace TrapFrame

/-- The offset of `x0` to `x30`. -/
def x (i : Nat) : Nat := 8 * i
def sp0 : Nat := 31 * 8
def trapno : Nat := 32 * 8
def esr : Nat := 33 * 8
def elr : Nat := 34 * 8
def spsr : Nat := 35 * 8
def size : Nat := 36 * 8

end TrapFrame

/-! ## Ways the kernel stops -/

/-- The functions with an `ASSERT`. -/
inductive Site
  | kfree | kalloc | mapPage | freePage | copyUvm | initIdleProcess | allocNewProcess | initUserProcess
  | wait | fork | readRawData | getClusterOffset | putFcb | initFs
  deriving DecidableEq, Repr

/-- Why the kernel never returns from the code it is running. -/
inductive Stop
  /-- A failed `ASSERT`: `error_check` loops forever. -/
  | assert (site : Site)
  /-- An abort taken in the kernel: `exception_handler` loops forever. -/
  | abort
  /-- A loop of the code itself does not end. -/
  | hang
  /-- An access outside an array, after which C promises nothing. -/
  | outOfBounds
  deriving DecidableEq, Repr

/-- `ASSERT(c)` in the function `site`. -/
def ASSERT (site : Site) (c : Prop) [Decidable c] : Except Stop Unit := require (.assert site) c

/-! ## Processes and their lists -/

/-- `struct List *`: nothing, the list head it belongs to, or the process `i`. -/
inductive ListPtr (ι : Type)
  | null | head | item (i : ι)
  deriving DecidableEq, Repr

/-- `struct HeadList`. -/
structure HeadList (ι : Type) where
  next : ListPtr ι
  tail : ListPtr ι
  deriving DecidableEq, Repr

/-- The `PROC_*` states. -/
inductive ProcState
  | unused | init | running | ready | sleep | killed
  deriving DecidableEq, Repr

/-- The number of file slots of a process. -/
def numFile : Nat := 100

/-- `struct Process`, over the type `ι` of process pointers. -/
structure Process (ι : Type) where
  next : ListPtr ι
  pid : Int
  wait : Int
  state : ProcState
  context : Nat
  pageMap : Nat
  stack : Nat
  file : Fin numFile → Option Nat
  tf : Nat

/-- A cleared `struct Process`. -/
def Process.zero {ι : Type} : Process ι where
  next := .null
  pid := 0
  wait := 0
  state := .unused
  context := 0
  pageMap := 0
  stack := 0
  file := fun _ => none
  tf := 0

def numProc : Nat := 10

/-- A pointer into `process_table`. -/
abbrev Proc := Fin numProc

/-- `&process_table[0]`. -/
def idle : Proc := ⟨0, by decide⟩

/-- `struct ProcessControl`. Before `init_process` the current process is `NULL`; the state starts there. -/
structure ProcessControl where
  currentProcess : Proc
  readyList : HeadList Proc
  waitList : HeadList Proc
  killList : HeadList Proc

/-- The three lists of `struct ProcessControl`. -/
inductive ListId
  | ready | wait | kill
  deriving DecidableEq, Repr

def ProcessControl.list (pc : ProcessControl) : ListId → HeadList Proc
  | .ready => pc.readyList
  | .wait => pc.waitList
  | .kill => pc.killList

def ProcessControl.setList (pc : ProcessControl) : ListId → HeadList Proc → ProcessControl
  | .ready, l => { pc with readyList := l }
  | .wait, l => { pc with waitList := l }
  | .kill, l => { pc with killList := l }

/-- Where a process that is not running its own code continues when it is dispatched. The address is the
trap frame its `exception_handler` was called with. -/
inductive Kont
  /-- It leaves the kernel through `trap_return`. -/
  | ret
  /-- It is in the `sleep(-3)` of `wait(pid)`. -/
  | wait (tf : Nat) (pid : Int)
  /-- It is in the `sleep(-1)` of `sys_sleep`. -/
  | sysSleep (tf : Nat) (oldTicks sleepTicks : Nat)
  /-- It is in the `sleep(-2)` of `read_key_buffer`, with the read index it took before. -/
  | readKeyBuffer (tf : Nat) (front : Nat)
  deriving DecidableEq, Repr

/-! ## Files -/

/-- `struct FCB`. -/
structure FCB where
  name : List UInt8
  ext : List UInt8
  clusterIndex : Nat
  dirIndex : Nat
  fileSize : Nat
  count : Int
  deriving DecidableEq

/-- `struct FileDesc`: `fcb` points into `fcb_table`. -/
structure FileDesc where
  fcb : Option Nat
  position : Nat
  count : Int
  deriving DecidableEq

def FCB.zero : FCB := ⟨List.replicate 8 0, List.replicate 3 0, 0, 0, 0, 0⟩
def FileDesc.zero : FileDesc := ⟨none, 0, 0⟩

/-- The statics of `fs.c`: two tables and the heap pages that hold them. -/
structure Fs where
  fcbTable : Nat → FCB
  fileDescTable : Nat → FileDesc
  fcbPage : Nat
  fileDescPage : Nat

/-! ## Keyboard -/

def keyboardBufferMax : Nat := 500

/-- `struct KeyboardBuffer`. -/
structure KeyboardBuffer where
  buffer : Nat → UInt8
  front : Nat
  «end» : Nat
  size : Nat

/-! ## The whole state -/

/-- The bytes of memory and `free_memory.next`. -/
structure Memory where
  mem : Mem
  freeMemory : Nat

/-- What an observer of the kernel sees happen, for statements about whole runs. No function reads it. -/
inductive Obs
  /-- `append_list_tail` put the process on the list. -/
  | append (list : ListId) (proc : Proc)
  /-- `schedule` switched from the first process to the second. -/
  | dispatch (prev current : Proc)
  /-- The process with this pid called `exit`. -/
  | exit (pid : Int)
  /-- `wait` reaped the process with this pid. -/
  | reap (pid : Int)
  /-- `write_key_buffer` stored the character. -/
  | keyIn (ch : UInt8)
  /-- `read_key_buffer` returned the character. -/
  | keyOut (ch : UInt8)
  deriving DecidableEq, Repr

structure Kernel where
  processTable : Proc → Process Proc
  pidNum : Int
  pc : ProcessControl
  memory : Memory
  fs : Fs
  keyBuffer : KeyboardBuffer
  ticks : Nat
  ttbr0 : Nat
  kont : Proc → Kont
  trace : List Obs

namespace Kernel

/-- The current process. -/
abbrev current (s : Kernel) : Proc := s.pc.currentProcess

/-- The process structure `i` points to. -/
abbrev proc (s : Kernel) (i : Proc) : Process Proc := s.processTable i

/-- Write the process structure `i` points to. -/
def setProc (s : Kernel) (i : Proc) (p : Process Proc) : Kernel :=
  { s with processTable := Function.update s.processTable i p }

def setKont (s : Kernel) (i : Proc) (k : Kont) : Kernel := { s with kont := Function.update s.kont i k }

def observe (s : Kernel) (o : Obs) : Kernel := { s with trace := s.trace ++ [o] }

/-- Write memory. -/
def setMem (s : Kernel) (m : Mem) : Kernel := { s with memory := { s.memory with mem := m } }

end Kernel

end ArmOs
