import ArmOs.Kernel.Print

/-!
# The shell reads a line (`console.c`)

The keys that `keyboard_read` delivers are a list, and `screen` is what `printf` has sent since the prompt.
-/

namespace ArmOs

open Lib

structure CmdState where
  ch : List UInt8
  buffer : List UInt8
  bufferSize : Nat
  screen : List UInt8

namespace CmdState

/-- The state at the entry of `read_cmd`, with the buffer that `main` has cleared. -/
def initial : CmdState := ⟨[0, 0, 0, 0], List.replicate 100 0, 0, []⟩

/-- `ch[i] = c`. -/
def setCh (i : Nat) (c : UInt8) (s : CmdState) : Except PrintStop CmdState := do
  let ch ← store .store s.ch i c
  pure { s with ch := ch }

def setBuffer (i : Nat) (c : UInt8) (s : CmdState) : Except PrintStop CmdState := do
  let buffer ← store .store s.buffer i c
  pure { s with buffer := buffer }

variable (junk : Nat → UInt8)

/-- `printf("%s", ch)`. -/
def echo (s : CmdState) : Except PrintStop CmdState := do
  let p ← printf junk (literal "%s") [.string s.ch]
  pure { s with screen := s.screen ++ p.output }

/-- The branch that leaves the loop. -/
def leave (key : UInt8) (s : CmdState) : Except PrintStop CmdState := do
  let s ← if key = char '\r' then s.setCh 0 (char '\r') >>= setCh 1 (char '\n') else pure s
  let s ← s.echo junk
  s.setCh 1 0

/-- The branch of the backspace key. -/
def erase (s : CmdState) : Except PrintStop CmdState :=
  if s.bufferSize > 0 then do
    let s := { s with bufferSize := s.bufferSize - 1 }
    let s ← s.setBuffer s.bufferSize 0
    let s ← s.setCh 0 8 >>= setCh 1 (char ' ') >>= setCh 2 8
    let s ← s.echo junk
    s.setCh 1 0 >>= setCh 2 0
  else
    pure s

def append (key : UInt8) (s : CmdState) : Except PrintStop CmdState := do
  let s ← s.setBuffer s.bufferSize key
  let s := { s with bufferSize := s.bufferSize + 1 }
  s.echo junk

/-- The test that leaves the loop. -/
def Ends (key : UInt8) (s : CmdState) : Prop := key = char '\r' ∨ s.bufferSize > 80

instance (key : UInt8) : DecidablePred (Ends key) :=
  fun s => inferInstanceAs (Decidable (key = char '\r' ∨ s.bufferSize > 80))

end CmdState

/-- `read_cmd` waits for the next key, or returns `s.bufferSize` and leaves the keys `rest`. -/
inductive CmdResult
  | reading (s : CmdState)
  | returned (s : CmdState) (rest : List UInt8)

def readCmd (junk : Nat → UInt8) : List UInt8 → CmdState → Except PrintStop CmdResult
  | [], s => pure (.reading s)
  | key :: keys, s => do
    let s ← s.setCh 0 key
    if s.Ends key then do
      let s ← s.leave junk key
      pure (.returned s keys)
    else if key = 127 then do
      let s ← s.erase junk
      readCmd junk keys s
    else do
      let s ← s.append junk key
      readCmd junk keys s

end ArmOs
