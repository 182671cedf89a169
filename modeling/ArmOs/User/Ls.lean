import ArmOs.Kernel.Fs

/-!
# The program `ls` (`ls.c`)

It copies the root directory to `buffer` and prints a line for every entry that it does not pass over.
-/

namespace ArmOs

open Lib

/-- What `printf` gets for an entry. -/
structure LsLine where
  name : List UInt8
  dir : Bool
  fileSize : Nat

namespace Ls

variable (buffer : Mem) (i : Nat)

/-- `buffer[i].name`. -/
def name : List UInt8 := buffer.bytes (dirEntrySize * i) 8
def attributes : Nat := buffer.read 1 (dirEntrySize * i + 11)
def fileSize : Nat := buffer.read 4 (dirEntrySize * i + 28)

/-- A round of the loop of `main`. Two bytes after the name stay 0. -/
def line : Option LsLine :=
  if buffer (dirEntrySize * i) = entryEmpty ∨ buffer (dirEntrySize * i) = entryDeleted ∨ attributes buffer i = 0xf ∨
      attributes buffer i = 8 then
    none
  else
    some { name := name buffer i ++ [0, 0], dir := attributes buffer i &&& 0x10 = 0x10, fileSize := fileSize buffer i }

/-- The lines that `main` prints for `count` entries. -/
def main (count : Nat) : List LsLine := (List.range count).filterMap (line buffer)

end Ls

end ArmOs
