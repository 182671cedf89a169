import ArmOs.Fat.Lemmas.Copies
import ArmOs.Fat.Lemmas.Descriptor
import ArmOs.Kernel.System

/-!
# System calls from the registers (`system_call`)

The trap frame has the number of the call in `x8`, a count in `x0` and the address of the arguments in `x1`. Whatever
the kernel reads or writes through that address and through the pointers among the arguments is an access.
-/

namespace ArmOs

open Lib

section

variable (s : Kernel)

/-- `argptr[i]`. -/
def argument (argptr i : Nat) : Except Stop Nat := do
  let a ← resolve s.memory.mem s.ttbr0 ((argptr + 8 * i) % 2 ^ 64) 8
  return s.memory.mem.read 8 a

/-! ## File names -/

/-- The bytes from `name` on, and 0 where the kernel cannot read. -/
def pathAt (name : Nat) (k : Nat) : UInt8 :=
  match resolve s.memory.mem s.ttbr0 ((name + k) % 2 ^ 64) 1 with
  | .ok a => s.memory.mem a
  | .error _ => 0

/-- Where a loop of `split_path` over at most `n` characters ends. -/
def splitEnd (stops : UInt8 → Bool) (path : Nat → UInt8) : (n i : Nat) → Nat
  | 0, i => i
  | n + 1, i => if stops (path i) then i else splitEnd stops path n (i + 1)

/-- How many characters of the path `split_path` reads. -/
def pathReads (path : Nat → UInt8) : Nat :=
  let i := splitEnd (fun c => c = dot ∨ c = 0 ∨ c = slash) path maxFilename 0
  if path i = dot then splitEnd (fun c => c = 0 ∨ c = slash) path maxFileExtName (i + 1) + 1 else i + 1

/-- Does `open_file` get as far as to look at the path? -/
def ReadsPath : Prop := (freeSlot (s.proc s.current)).isSome ∧ (freeFileDesc s.fs).isSome

instance : Decidable (ReadsPath s) :=
  inferInstanceAs (Decidable ((freeSlot (s.proc s.current)).isSome ∧ (freeFileDesc s.fs).isSome))

/-- The accesses to the path at `name`. -/
def pathAccesses (name : Nat) : List (Nat × Nat) :=
  if ReadsPath s then (List.range (pathReads (pathAt s name))).map fun k => ((name + k) % 2 ^ 64, 1) else []

/-- The path at `name`, when the kernel can read what it wants of it. -/
def loadPath (name : Nat) : Except Stop (Nat → UInt8) := do
  let _ ← (pathAccesses s name).mapM fun a => resolve s.memory.mem s.ttbr0 a.1 a.2
  return pathAt s name

/-! ## Calls -/

/-- What `system_calls[i](argptr)` takes from its arguments. -/
def handlerCall (argptr : Nat) : Nat → Except Stop Syscall
  | 0 => do
    let buffer ← argument s argptr 0
    let size ← argument s argptr 1
    return .write buffer (int32 size)
  | 1 => do
    let ticks ← argument s argptr 0
    return .sleep ticks
  | 2 => return .exit
  | 3 => do
    let pid ← argument s argptr 0
    return .wait (int32 pid)
  | 4 => do
    let name ← argument s argptr 0
    let path ← loadPath s name
    return .openFile path
  | 5 => do
    let fd ← argument s argptr 0
    return .closeFile (int32 fd)
  | 6 => do
    let fd ← argument s argptr 0
    return .getFileSize (int32 fd)
  | 7 => do
    let fd ← argument s argptr 0
    let buffer ← argument s argptr 1
    let size ← argument s argptr 2
    return .readFile (int32 fd) buffer (size % 2 ^ 32)
  | 8 => return .fork
  | 9 => return .getpid
  | 10 => do
    let name ← argument s argptr 0
    let path ← loadPath s name
    return .exec path
  | 11 => return .keyboardRead
  | 12 => do
    let buffer ← argument s argptr 0
    return .readRootDirectory buffer
  | _ => return .invalid

/-- The test of `system_call`. -/
def InvalidSvc (x0 x8 : BitVec 64) : Prop := x0.toInt < 0 ∨ x8.toInt < 0 ∨ x8.toInt > 12

instance (x0 x8 : BitVec 64) : Decidable (InvalidSvc x0 x8) :=
  inferInstanceAs (Decidable (x0.toInt < 0 ∨ x8.toInt < 0 ∨ x8.toInt > 12))

/-- The call that the registers ask for. -/
def decode (x0 x1 x8 : BitVec 64) : Except Stop Syscall :=
  if InvalidSvc x0 x8 then .ok .invalid else handlerCall s x1.toNat x8.toNat

/-- `system_call` of the current process with these registers. -/
def systemCallRegs (L : Layout) (x0 x1 x8 : BitVec 64) : Except Stop (Option Int × Kernel) := do
  let call ← decode s x0 x1 x8
  systemCall L (s.proc s.current).tf call s

/-! ## Accesses -/

/-- How many arguments the handler reads. -/
def argumentCount : Nat → Nat
  | 0 => 2
  | 1 => 1
  | 3 => 1
  | 4 => 1
  | 5 => 1
  | 6 => 1
  | 7 => 3
  | 10 => 1
  | 12 => 1
  | _ => 0

/-- The accesses to the arguments. -/
def argumentAccesses (argptr i : Nat) : List (Nat × Nat) :=
  (List.range (argumentCount i)).map fun k => ((argptr + 8 * k) % 2 ^ 64, 8)

/-- The accesses of `open_file` and `exec` to the name. -/
def nameAccesses (argptr i : Nat) : List (Nat × Nat) :=
  if i = 4 ∨ i = 10 then
    match argument s argptr 0 with
    | .ok name => pathAccesses s name
    | .error _ => []
  else []

/-- The accesses of `read_file` to its buffer. -/
def readAccesses (fd : Int) (buffer size : Nat) : List (Nat × Nat) :=
  match fileSlot (s.proc s.current) fd with
  | .ok (some d) =>
    match (s.fs.fileDescTable d).fcb with
    | some f =>
      if Refused (s.fs.fileDescTable d).position size (s.fs.fcbTable f).fileSize then
        []
      else
        rawCopies s.ttbr0 (s.fs.fcbTable f).clusterIndex buffer (s.fs.fileDescTable d).position size s.memory.mem
    | none => []
  | _ => []

/-- The accesses of the handler to the buffers of a call, each with its length. -/
def bufferAccesses : Syscall → List (Nat × Nat)
  | .write buffer size => [(buffer, size.toNat)]
  | .readFile fd buffer size => readAccesses s fd buffer size
  | .readRootDirectory buffer => [(buffer, getRootDirectoryCount s.memory.mem * dirEntrySize)]
  | _ => []

/-- All accesses of the call through pointers of the caller. -/
def accesses (x0 x1 x8 : BitVec 64) : List (Nat × Nat) :=
  if InvalidSvc x0 x8 then []
  else
    argumentAccesses x1.toNat x8.toNat ++ nameAccesses s x1.toNat x8.toNat ++
      match handlerCall s x1.toNat x8.toNat with
      | .ok call => bufferAccesses s call
      | .error _ => []

end

end ArmOs
