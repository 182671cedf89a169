import ArmOs.Kernel.Fs
import ArmOs.Kernel.Keyboard
import ArmOs.Kernel.List

/-!
# Processes (`process.c`)

A function that switches to another process ends there; where the process it leaves will continue is kept in
`kont`. The registers that `swap` saves and loads are in `ArmOs.Kernel.Context`. `setup_uvm` (`memory.c`) and
`read_key_buffer` (`keyboard.c`) are here because they use what this module defines.
-/

namespace ArmOs

open Lib

/-! ## Lists of the process control -/

/-- No list of processes is longer than the table: enough rounds for every loop over one. -/
def listFuel : Nat := numProc + 1

namespace Kernel

/-- `append_list_tail(&process_control->list, item)`. -/
def appendTail (list : ListId) (item : Proc) (s : Kernel) : Except Stop Kernel := do
  let (table, l) ← appendListTail s.processTable (s.pc.list list) item
  return { s with
    processTable := table
    pc := s.pc.setList list l
    trace := s.trace ++ [.append list item] }

/-- `remove_list(&process_control->list, wait)`. -/
def removeWait (list : ListId) (wait : Int) (s : Kernel) : Except Stop (ListPtr Proc × Kernel) := do
  let (item, table, l) ← removeList listFuel s.processTable (s.pc.list list) wait
  return (item, { s with processTable := table, pc := s.pc.setList list l })

end Kernel

/-! ## Creating processes -/

def findUnusedProcess (s : Kernel) : Option Proc := Fin.find? fun i => (s.proc i).state = .unused

variable (L : Layout)

def initIdleProcess (s : Kernel) : Except Stop Kernel := do
  ASSERT .initIdleProcess (findUnusedProcess s = some idle)
  let s := s.setProc idle
    { s.proc idle with state := .running, pid := 0, pageMap := p2v L.bootPgd }
  return { s with pc := { s.pc with currentProcess := idle } }

/-- `alloc_new_process`. With no unused slot it stores through a null pointer. -/
def allocNewProcess (s : Kernel) : Except Stop (Proc × Kernel) := do
  let found := findUnusedProcess s
  let (stack, M) ← kalloc L s.memory
  let process ← deref found
  ASSERT .allocNewProcess (stack ≠ 0)
  let m := M.mem.fill stack pageSize 0
  let context := stack + pageSize - TrapFrame.size - 12 * 8
  let m := m.write 8 (context + 11 * 8) L.trapReturn
  let tf := stack + pageSize - TrapFrame.size
  let m := m.write 8 (tf + TrapFrame.elr) userBase
  let m := m.write 8 (tf + TrapFrame.sp0) (userBase + pageSize)
  let m := m.write 8 (tf + TrapFrame.spsr) 0
  let (pageMap, M) ← kalloc L { M with mem := m }
  ASSERT .allocNewProcess (pageMap ≠ 0)
  let M := { M with mem := M.mem.fill pageMap pageSize 0 }
  let s := s.setProc process
    { s.proc process with
      stack := stack, state := .init, pid := s.pidNum, context := context, tf := tf, pageMap := pageMap }
  let s := s.setKont process .ret
  return (process, { s with memory := M, pidNum := int32 (s.pidNum + 1) })

def setupUvm (process : Proc) (fileName : Nat → UInt8) (s : Kernel) : Except Stop (Bool × Kernel) := do
  let map := (s.proc process).pageMap
  let (page, M) ← kalloc L s.memory
  if page ≠ 0 then
    let M := { M with mem := M.mem.fill page pageSize 0 }
    let (status, M) ← mapPage L map userBase (v2p page) userAttribute M
    if status then
      let (fd, s) := openFile process fileName { s with memory := M }
      if fd = -1 then
        let M ← freeVm L map s.memory
        return (false, { s with memory := M })
      else
        let size ← getFileSize process fd s
        let (readSize, s) ← readFile process fd page size s
        if readSize ≠ size then
          let M ← freeVm L map s.memory
          return (false, { s with memory := M })
        else
          let s ← closeFile process fd s
          return (true, s)
    else
      let M ← kfree L page M
      let M ← freeVm L map M
      return (false, { s with memory := M })
  else
    return (false, { s with memory := M })

/-- A `char *` literal: the characters, then NUL. -/
def cstring (chars : List Char) (i : Nat) : UInt8 := ((chars.map fun c => c.toNat.toUInt8)[i]?).getD 0

def initUserProcess (s : Kernel) : Except Stop Kernel := do
  let (process, s) ← allocNewProcess L s
  let (status, s) ← setupUvm L process (cstring ['I', 'N', 'I', 'T', '.', 'B', 'I', 'N']) s
  ASSERT .initUserProcess (status = true)
  let s := s.setProc process { s.proc process with state := .ready }
  s.appendTail .ready process

def initProcess (s : Kernel) : Except Stop Kernel := do
  let s ← initIdleProcess L s
  initUserProcess L s

/-! ## Scheduling -/

/-- `switch_process`: install the page map, then `swap` continues in `current`. -/
def switchProcess (prev current : Proc) (s : Kernel) : Kernel :=
  let s := { s with ttbr0 := v2p (s.proc current).pageMap }
  s.observe (.dispatch prev current)

def schedule (s : Kernel) : Except Stop Kernel := do
  let prevProc := s.current
  let (currentProc, s) ←
    if isListEmpty s.pc.readyList then
      pure (idle, s)
    else do
      let (item, l) ← removeListHead s.processTable s.pc.readyList
      match item with
      | .item i => pure (i, { s with pc := { s.pc with readyList := l } })
      | _ => .error .abort
  let s := s.setProc currentProc { s.proc currentProc with state := .running }
  let s := { s with pc := { s.pc with currentProcess := currentProc } }
  return switchProcess prevProc currentProc s

def yield (s : Kernel) : Except Stop Kernel := do
  if isListEmpty s.pc.readyList then
    return s
  else
    let process := s.current
    let s := s.setProc process { s.proc process with state := .ready }
    let s ← if (s.proc process).pid ≠ 0 then s.appendTail .ready process else pure s
    schedule s

def sleep (wait : Int) (s : Kernel) : Except Stop Kernel := do
  let process := s.current
  let s := s.setProc process { s.proc process with state := .sleep, wait := wait }
  let s ← s.appendTail .wait process
  schedule s

/-- The loop of `wake_up`, from the result of the last `remove_list` on. -/
def wakeUpLoop (wait : Int) : (fuel : Nat) → ListPtr Proc → Kernel → Except Stop Kernel
  | 0, _, _ => .error .hang
  | fuel + 1, process, s =>
      match process with
      | .null => .ok s
      | .head => .error .abort
      | .item p => do
          let s := s.setProc p { s.proc p with state := .ready }
          let s ← s.appendTail .ready p
          let (process, s) ← s.removeWait .wait wait
          wakeUpLoop wait fuel process s

def wakeUp (wait : Int) (s : Kernel) : Except Stop Kernel := do
  let (process, s) ← s.removeWait .wait wait
  wakeUpLoop wait listFuel process s

def exit (s : Kernel) : Except Stop Kernel := do
  let process := s.current
  let pid := (s.proc process).pid
  let s := (s.observe (.exit pid)).setProc process { s.proc process with state := .killed, wait := pid }
  let s ← s.appendTail .kill process
  let s ← wakeUp (-3) s
  schedule s

/-- One round of the loop of `wait`: reap the process and return (`true`), or go to sleep. -/
def wait (tf : Nat) (pid : Int) (s : Kernel) : Except Stop (Bool × Kernel) := do
  let (found, s) ←
    if isListEmpty s.pc.killList then pure (ListPtr.null, s) else s.removeWait .kill pid
  match found with
  | .item process =>
      ASSERT .wait ((s.proc process).state = .killed)
      let M ← kfree L (s.proc process).stack s.memory
      let M ← freeVm L (s.proc process).pageMap M
      let s := s.observe (.reap (s.proc process).pid)
      let s := s.setProc process Process.zero
      return (true, { s with memory := M })
  | .null =>
      let self := s.current
      let s ← sleep (-3) s
      return (false, s.setKont self (.wait tf pid))
  | .head => .error .abort

/-! ## `fork` and `exec` -/

/-- `process->file[i]->count++` and `process->file[i]->fcb->count++`. -/
def countSlot (slot : Option Nat) (fs : Fs) : Except Stop Fs :=
  match slot with
  | none => .ok fs
  | some d => do
      let desc := fs.fileDescTable d
      let fcb ← deref desc.fcb
      let fs := fs.setFileDesc d { desc with count := int32 (desc.count + 1) }
      return fs.setFcb fcb { fs.fcbTable fcb with count := int32 ((fs.fcbTable fcb).count + 1) }

def fork (s : Kernel) : Except Stop (Int × Kernel) := do
  let currentProcess := s.current
  let (process, s) ← allocNewProcess L s
  let (status, M) ← copyUvm L (s.proc process).pageMap (s.proc currentProcess).pageMap pageSize s.memory
  ASSERT .fork (status = true)
  let s := s.setProc process { s.proc process with file := (s.proc currentProcess).file }
  let fs ← (List.finRange numFile).foldlM (fun fs i => countSlot ((s.proc process).file i) fs) s.fs
  let tf := (s.proc process).tf
  let m := M.mem.copy tf (s.proc currentProcess).tf TrapFrame.size
  let m := m.write 8 (tf + TrapFrame.x 0) 0
  let s := { s with memory := { M with mem := m }, fs := fs }
  let s := s.setProc process { s.proc process with state := .ready }
  let s ← s.appendTail .ready process
  return ((s.proc process).pid, s)

/-- `exec`: `none` when it kills the process instead of returning. -/
def exec (process : Proc) (name : Nat → UInt8) (s : Kernel) : Except Stop (Option Int × Kernel) := do
  let (fd, s) := openFile process name s
  if fd = -1 then
    let s ← exit s
    return (none, s)
  else
    let dst ← resolve s.memory.mem s.ttbr0 userBase pageSize
    let s := s.setMem (s.memory.mem.fill dst pageSize 0)
    let size ← getFileSize process fd s
    let (readSize, s) ← readFile process fd userBase size s
    if readSize = 0xffffffff then
      let s ← exit s
      return (none, s)
    else
      let s ← closeFile process fd s
      let tf := (s.proc process).tf
      let m := s.memory.mem.fill tf TrapFrame.size 0
      let m := m.write 8 (tf + TrapFrame.elr) userBase
      let m := m.write 8 (tf + TrapFrame.sp0) (userBase + pageSize)
      let m := m.write 8 (tf + TrapFrame.spsr) 0
      return (some 0, s.setMem m)

/-! ## Blocking reads of the keyboard -/

/-- `read_key_buffer`: the character, or `none` when the process went to sleep. -/
def readKeyBuffer (tf : Nat) (s : Kernel) : Except Stop (Option UInt8 × Kernel) := do
  let front := s.keyBuffer.front
  if front = s.keyBuffer.end then
    let self := s.current
    let s ← sleep (-2) s
    return (none, s.setKont self (.readKeyBuffer tf front))
  else
    let (ch, s) := takeKey front s
    return (some ch, s)

def keyboardHandler (ch : UInt8) (s : Kernel) : Except Stop Kernel := wakeUp (-2) (writeKeyBuffer ch s)

end ArmOs
