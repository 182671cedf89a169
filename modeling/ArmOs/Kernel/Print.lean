import ArmOs.Lib.Array

/-!
# Formatted output (`utils/print.c`, `user/lib/print.c`)

The two files differ in `printk` and `printf` only. A character array is the list of its bytes, and a local array
begins with whatever `junk` the stack holds. A string is the array it is kept in, its NUL and what follows included.
-/

namespace ArmOs

open Lib

/-- Why the formatting code does not return. -/
inductive PrintStop
  /-- It reads outside an array. -/
  | load
  /-- It writes outside an array. -/
  | store
  /-- It takes an argument that the caller did not pass, or of a type that the caller did not pass it with. -/
  | vaArg
  /-- A loop does not end. -/
  | hang
  deriving DecidableEq, Repr

def char (c : Char) : UInt8 := c.toNat.toUInt8

/-- A string literal, its NUL included. -/
def literal (s : String) : List UInt8 := s.toList.map char ++ [0]

/-- A local array of `n` bytes before anything is stored to it. -/
def localArray (junk : Nat → UInt8) (n : Nat) : List UInt8 := (List.range n).map junk

/-! ## The converters

Each returns the buffer and the number of bytes it has stored to it. -/

variable (junk : Nat → UInt8)

/-- The loop of `read_string`, with as many rounds as the array has bytes. -/
def readStringLoop (string : List UInt8) : Nat → Nat → List UInt8 → Nat → Except PrintStop (List UInt8 × Nat)
  | 0, _, _, _ => .error .hang
  | fuel + 1, index, buffer, position => do
    let c ← load .load string index
    if c = 0 then
      pure (buffer, index)
    else
      let buffer ← store .store buffer position c
      readStringLoop string fuel (index + 1) buffer (position + 1)

def readString (buffer : List UInt8) (position : Nat) (string : List UInt8) : Except PrintStop (List UInt8 × Nat) :=
  readStringLoop string (string.length + 1) 0 buffer position

/-- The `do` loop of the number converters: the digits, the last one first. -/
def digitsLoop (digitsMap : List UInt8) (base : UInt64) :
    Nat → UInt64 → List UInt8 → Nat → Except PrintStop (List UInt8 × Nat)
  | 0, _, _, _ => .error .hang
  | fuel + 1, digits, digitsBuffer, size => do
    let c ← load .load digitsMap (digits % base).toNat
    let digitsBuffer ← store .store digitsBuffer size c
    let size := size + 1
    let digits := digits / base
    if digits ≠ 0 then
      digitsLoop digitsMap base fuel digits digitsBuffer size
    else
      pure (digitsBuffer, size)

/-- The `for` loop of the number converters, from `i - 1` down to 0. -/
def reverseLoop (digitsBuffer : List UInt8) : Nat → List UInt8 → Nat → Except PrintStop (List UInt8)
  | 0, buffer, _ => pure buffer
  | i + 1, buffer, position => do
    let c ← load .load digitsBuffer i
    let buffer ← store .store buffer position c
    reverseLoop digitsBuffer i buffer (position + 1)

/-- What `hex_to_string` and `udecimal_to_string` share. A `uint64_t` has at most 64 digits. -/
def putDigits (digitsMap : List UInt8) (base : UInt64) (buffer : List UInt8) (position : Nat) (digits : UInt64) :
    Except PrintStop (List UInt8 × Nat) := do
  let (digitsBuffer, size) ← digitsLoop digitsMap base 64 digits (localArray junk 25) 0
  let buffer ← reverseLoop digitsBuffer size buffer position
  pure (buffer, size)

def hexMap : List UInt8 := "0123456789ABCDEF".toList.map char

def decimalMap : List UInt8 := "0123456789".toList.map char

def hexToString (buffer : List UInt8) (position : Nat) (digits : UInt64) : Except PrintStop (List UInt8 × Nat) := do
  let (buffer, size) ← putDigits junk hexMap 16 buffer position digits
  let buffer ← store .store buffer (position + size) (char 'H')
  pure (buffer, size + 1)

def udecimalToString (buffer : List UInt8) (position : Nat) (digits : UInt64) : Except PrintStop (List UInt8 × Nat) :=
  putDigits junk decimalMap 10 buffer position digits

/-- The negation wraps around, so the least `int64_t` stays as it is. -/
def decimalToString (buffer : List UInt8) (position : Nat) (digits : Int64) : Except PrintStop (List UInt8 × Nat) := do
  if digits < 0 then
    let buffer ← store .store buffer position (char '-')
    let (buffer, size) ← udecimalToString junk buffer (position + 1) (-digits).toUInt64
    pure (buffer, 1 + size)
  else
    udecimalToString junk buffer position digits.toUInt64

/-! ## The format -/

/-- An argument with the type it is passed with. -/
inductive Arg
  | int64 (v : Int64)
  | int32 (v : Int32)
  | string (s : List UInt8)
  deriving DecidableEq, Repr

def vaInt64 : List Arg → Except PrintStop (Int64 × List Arg)
  | .int64 v :: args => .ok (v, args)
  | _ => .error .vaArg

def vaInt32 : List Arg → Except PrintStop (Int32 × List Arg)
  | .int32 v :: args => .ok (v, args)
  | _ => .error .vaArg

def vaString : List Arg → Except PrintStop (List UInt8 × List Arg)
  | .string s :: args => .ok (s, args)
  | _ => .error .vaArg

/-- The local variables of the formatting loop. -/
structure PrintState where
  i : Nat
  buffer : List UInt8
  bufferSize : Nat
  args : List Arg

/-- The `switch` on the character `c` at the index `s.i`. -/
def formatSwitch (c : UInt8) (s : PrintState) : Except PrintStop PrintState :=
  if c = char 'x' then do
    let (integer, args) ← vaInt64 s.args
    let (buffer, size) ← hexToString junk s.buffer s.bufferSize integer.toUInt64
    pure { s with buffer := buffer, bufferSize := s.bufferSize + size, args := args }
  else if c = char 'u' then do
    let (integer, args) ← vaInt64 s.args
    let (buffer, size) ← udecimalToString junk s.buffer s.bufferSize integer.toUInt64
    pure { s with buffer := buffer, bufferSize := s.bufferSize + size, args := args }
  else if c = char 'd' then do
    let (integer, args) ← vaInt32 s.args
    let (buffer, size) ← decimalToString junk s.buffer s.bufferSize integer.toInt64
    pure { s with buffer := buffer, bufferSize := s.bufferSize + size, args := args }
  else if c = char 's' then do
    let (string, args) ← vaString s.args
    let (buffer, size) ← readString s.buffer s.bufferSize string
    pure { s with buffer := buffer, bufferSize := s.bufferSize + size, args := args }
  else do
    let buffer ← store .store s.buffer s.bufferSize (char '%')
    pure { s with buffer := buffer, bufferSize := s.bufferSize + 1, i := s.i - 1 }

/-- The body of the loop for the character `c` at the index `s.i`, without the `i++` of the loop. -/
def formatBody (format : List UInt8) (c : UInt8) (s : PrintState) : Except PrintStop PrintState :=
  if c ≠ char '%' then do
    let buffer ← store .store s.buffer s.bufferSize c
    pure { s with buffer := buffer, bufferSize := s.bufferSize + 1 }
  else do
    let d ← load .load format (s.i + 1)
    formatSwitch junk d { s with i := s.i + 1 }

def formatLoop (format : List UInt8) : Nat → PrintState → Except PrintStop PrintState
  | 0, _ => .error .hang
  | fuel + 1, s => do
    let c ← load .load format s.i
    if c = 0 then
      pure s
    else
      let s ← formatBody junk format c s
      formatLoop format fuel { s with i := s.i + 1 }

/-- `write_console`: the bytes that go to the UART. -/
def writeConsole (buffer : List UInt8) (size : Nat) : Except PrintStop (List UInt8) :=
  (List.range size).mapM (load .load buffer)

/-- The value returned, the bytes emitted and the arguments not taken. -/
structure Printed where
  result : Nat
  output : List UInt8
  args : List Arg
  deriving DecidableEq, Repr

/-- What `printk` and `printf` share: the loop makes as many rounds as the format has bytes. -/
def printed (write : List UInt8 → Nat → Except PrintStop (List UInt8)) (format : List UInt8) (args : List Arg) :
    Except PrintStop Printed := do
  let s ← formatLoop junk format format.length ⟨0, localArray junk 1024, 0, args⟩
  let output ← write s.buffer s.bufferSize
  pure ⟨s.bufferSize, output, s.args⟩

def printk (format : List UInt8) (args : List Arg) : Except PrintStop Printed :=
  printed junk writeConsole format args

/-- `writeu`, the system call that passes buffer and size on to `write_console`. -/
def writeu (buffer : List UInt8) (size : Nat) : Except PrintStop (List UInt8) := writeConsole buffer size

def printf (format : List UInt8) (args : List Arg) : Except PrintStop Printed :=
  printed junk writeu format args

end ArmOs
