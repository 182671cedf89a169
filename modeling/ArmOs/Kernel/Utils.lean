import ArmOs.Lib.Arm
import ArmOs.Kernel.Types

/-!
# The copy routine (`utils.s`, and the same lines of `lib.s`)

`memcpyCode` is the routine as it is written, `memcpy` what it does to the memory of the kernel. The two are compared in
`ArmOs.Copy.Theorems`.
-/

namespace ArmOs

open Lib Lib.Arm

inductive CodeLabel
  | memmove | memcpy | memcpyFast | overlap | copy | memcpyCmpSize | copy4 | copy1 | memcpyRestoreP | memcpyEnd
  deriving DecidableEq

/-- `memmove`, `memcpy` and `memcpy_fast`: one routine with three names. -/
def memcpyCode : List (Instr CodeLabel) :=
  [ .label .memmove,
    .label .memcpy,
    .label .memcpyFast,
    .cmpImm .x2 0,
    .bCond .eq .memcpyEnd,
    .mov .x6 .x0,
    .mov .x7 .x1,
    .movImm .x4 1,
    .movImm .x5 4,
    .cmp .x1 .x0,
    .bCond .hs .copy,
    .add .x3 .x1 .x2,
    .cmp .x3 .x0,
    .bCond .ls .copy,
    .label .overlap,
    .subImm .x3 .x2 1,
    .add .x0 .x0 .x3,
    .add .x1 .x1 .x3,
    .neg .x4 .x4,
    .neg .x5 .x5,
    .label .copy,
    .label .memcpyCmpSize,
    .cmpImm .x2 4,
    .bCond .lo .copy1,
    .label .copy4,
    .ldrW .x3 .x1,
    .strW .x3 .x0,
    .add .x0 .x0 .x5,
    .add .x1 .x1 .x5,
    .subsImm .x2 .x2 4,
    .bCond .eq .memcpyRestoreP,
    .b .copy,
    .label .copy1,
    .ldrb .x3 .x1,
    .strb .x3 .x0,
    .add .x0 .x0 .x4,
    .add .x1 .x1 .x4,
    .subsImm .x2 .x2 1,
    .bCond .ne .copy1,
    .label .memcpyRestoreP,
    .mov .x0 .x6,
    .mov .x1 .x7,
    .label .memcpyEnd,
    .ret ]

/-- The state `s` is at a call of `memcpy(dst, src, n)`. -/
structure Calls (s : State) (dst src n : Word) : Prop where
  pc : s.pc = place memcpyCode .memmove ∨ s.pc = place memcpyCode .memcpy ∨ s.pc = place memcpyCode .memcpyFast
  x0 : s.regs .x0 = dst
  x1 : s.regs .x1 = src
  x2 : s.regs .x2 = n

/-- The `n` bytes from `dst` on in `m'` are those from `src` on in `m`, and nothing else changed. -/
structure Transfers (m : Store) (dst src : Word) (n : Nat) (m' : Store) : Prop where
  copied : ∀ i < n, m' (dst + BitVec.ofNat 64 i) = m (src + BitVec.ofNat 64 i)
  frame : ∀ a : Word, a.toNat < dst.toNat ∨ dst.toNat + n ≤ a.toNat → m' a = m a

/-! ## The memory after it -/

/-- A destination inside the source is copied to backwards, each word three bytes too high. -/
def memcpy (m : Mem) (dst src n : Nat) : Mem :=
  if src < dst ∧ dst < src + n then
    fun x => if dst ≤ x ∧ (x - dst < n % 4 ∨ n % 4 + 3 ≤ x - dst ∧ x - dst < n + 3) then m (src + (x - dst)) else m x
  else
    m.copy dst src n

variable {m : Mem} {dst src n x : Nat}

theorem memcpy_eq_copy (h : src < dst → src + n ≤ dst) : memcpy m dst src n = m.copy dst src n := by
  apply if_neg
  intro hin
  exact Nat.not_le_of_gt hin.2 (h hin.1)

theorem memcpy_inside (hlo : src < dst) (hhi : dst < src + n) (x : Nat) : memcpy m dst src n x =
    if dst ≤ x ∧ (x - dst < n % 4 ∨ n % 4 + 3 ≤ x - dst ∧ x - dst < n + 3) then m (src + (x - dst)) else m x := by
  unfold memcpy
  rw [if_pos ⟨hlo, hhi⟩]

theorem memcpy_of_lt (h : x < dst) : memcpy m dst src n x = m x := by
  have hnot : ¬dst ≤ x := Nat.not_le_of_gt h
  unfold memcpy
  split
  · exact if_neg (fun hin => hnot hin.1)
  · exact if_neg (fun hin => hnot hin.1)

end ArmOs
