import Mathlib.Algebra.Ring.Nat
import Mathlib.Logic.Function.Basic
import ArmOs.Lib.Bytes

/-!
# Stack frames of AArch64

Straight-line code of exception level 1 that saves registers in pairs at the stack pointer and loads them again. Code
that only saves puts a list of words with their offsets to memory, and every word is found again if no two overlap.
-/

namespace Lib.El1

abbrev Word := BitVec 64

/-! ## Words of memory -/

/-- The 64-bit word at `a`. -/
def word (m : Mem) (a : Nat) : Word := BitVec.ofNat 64 (m.read 8 a)

/-- Store the words at their offsets from `a`, one after the other. -/
def putWords (m : Mem) (a : Word) (ws : List (Nat × Word)) : Mem :=
  ws.foldl (fun m w => m.write 8 (a + BitVec.ofNat 64 w.1).toNat w.2.toNat) m

/-! ## Instructions -/

/-- `x0` to `x30`. -/
abbrev Reg := Fin 31

instance neZero_regs : NeZero 31 := ⟨by decide⟩

inductive SysReg
  | esrEl1 | elrEl1 | spsrEl1 | spEl0
  deriving DecidableEq, Repr

inductive Instr
  | subSp (n : Nat)
  | addSp (n : Nat)
  /-- `stp t, u, [sp, #k]` and `ldp t, u, [sp, #k]`. -/
  | stp (t u : Reg) (k : Nat)
  | ldp (t u : Reg) (k : Nat)
  | mrs (t : Reg) (r : SysReg)
  | msr (r : SysReg) (t : Reg)
  /-- `mov d, sp` and `mov sp, n`. -/
  | movSp (d : Reg)
  | setSp (n : Reg)
  | movImm (d : Reg) (v : Word)
  | lsr (d n : Reg) (k : Nat)
  | cmpImm (n : Reg) (v : Word)
  /-- `csel d, n, m, ne`. -/
  | cselNe (d n m : Reg)
  deriving DecidableEq, Repr

/-- The registers, with `SP_EL1` for `sp`, and the flag that equality sets. -/
structure Cpu where
  x : Reg → Word
  sp : Word
  sys : SysReg → Word
  z : Bool

namespace Cpu

def set (c : Cpu) (d : Reg) (v : Word) : Cpu := { c with x := Function.update c.x d v }

def setSys (c : Cpu) (r : SysReg) (v : Word) : Cpu := { c with sys := Function.update c.sys r v }

/-- Where `[sp, #k]` is. -/
def slot (c : Cpu) (k : Nat) : Nat := (c.sp + BitVec.ofNat 64 k).toNat

end Cpu

def Instr.exec (c : Cpu) (m : Mem) : Instr → Cpu × Mem
  | subSp n => ({ c with sp := c.sp - BitVec.ofNat 64 n }, m)
  | addSp n => ({ c with sp := c.sp + BitVec.ofNat 64 n }, m)
  | stp t u k => (c, (m.write 8 (c.slot k) (c.x t).toNat).write 8 (c.slot (k + 8)) (c.x u).toNat)
  | ldp t u k => ((c.set t (word m (c.slot k))).set u (word m (c.slot (k + 8))), m)
  | mrs t r => (c.set t (c.sys r), m)
  | msr r t => (c.setSys r (c.x t), m)
  | movSp d => (c.set d c.sp, m)
  | setSp n => ({ c with sp := c.x n }, m)
  | movImm d v => (c.set d v, m)
  | lsr d n k => (c.set d (c.x n >>> k), m)
  | cmpImm n v => ({ c with z := c.x n = v }, m)
  | cselNe d n n' => (c.set d (c.x (if c.z then n' else n)), m)

/-- Run the code from its beginning to its end. -/
def run (code : List Instr) (s : Cpu × Mem) : Cpu × Mem := code.foldl (fun s i => i.exec s.1 s.2) s

theorem run_nil (s : Cpu × Mem) : run [] s = s := rfl

theorem run_cons (i : Instr) (code : List Instr) (s : Cpu × Mem) : run (i :: code) s = run code (i.exec s.1 s.2) := rfl

theorem run_append (code code' : List Instr) (s : Cpu × Mem) : run (code ++ code') s = run code' (run code s) :=
  List.foldl_append

/-! ## Frames -/

variable {m m' : Mem} {a : Word} {b k n : Nat} {ws : List (Nat × Word)} {w : Nat × Word}

theorem putWords_append (m : Mem) (a : Word) (ws ws' : List (Nat × Word)) :
    putWords m a (ws ++ ws') = putWords (putWords m a ws) a ws' := List.foldl_append

theorem word_write (m : Mem) (b : Nat) (v : Word) : word (m.write 8 b v.toNat) b = v := by
  rw [word, Mem.read_write_of_lt m v.isLt, BitVec.ofNat_toNat, BitVec.setWidth_eq]

theorem word_congr (h : Mem.Same m m' b 8) : word m' b = word m b := by rw [word, word, Mem.read_congr h]

/-- The address of a word that does not wrap around. -/
theorem toNat_add_offset (h : a.toNat + k < 2 ^ 64) : (a + BitVec.ofNat 64 k).toNat = a.toNat + k := by
  rw [BitVec.toNat_add, BitVec.toNat_ofNat]
  omega

/-- The stack pointer after a frame is made. -/
theorem toNat_sub_offset (h : k ≤ a.toNat) : (a - BitVec.ofNat 64 k).toNat = a.toNat - k := by
  have hlt := a.isLt
  rw [BitVec.toNat_sub, BitVec.toNat_ofNat]
  omega

/-- No word of a frame of `n` bytes at `a` wraps around. -/
def Fits (a : Word) (n : Nat) (ws : List (Nat × Word)) : Prop := a.toNat + n ≤ 2 ^ 64 ∧ ∀ k ∈ ws.map Prod.fst, k + 8 ≤ n

/-- No two of the words overlap. -/
def Apart (ks : List Nat) : Prop := ks.Pairwise fun k k' => k + 8 ≤ k' ∨ k' + 8 ≤ k

instance : DecidablePred Apart := fun ks => inferInstanceAs (Decidable (ks.Pairwise fun k k' => k + 8 ≤ k' ∨ k' + 8 ≤ k))

/-- Bytes that no word covers are the same. -/
theorem putWords_same (m : Mem) (hfits : Fits a n ws) (hout : ∀ j ∈ ws.map Prod.fst, b + k ≤ a.toNat + j ∨ a.toNat + j + 8 ≤ b) :
    Mem.Same m (putWords m a ws) b k := by
  obtain ⟨hwrap, hall⟩ := hfits
  induction ws generalizing m with
  | nil => exact .refl m b k
  | cons w ws ih =>
      rw [List.map_cons, List.forall_mem_cons] at hall hout
      have haddr : (a + BitVec.ofNat 64 w.1).toNat = a.toNat + w.1 := toNat_add_offset (by omega)
      have hone : Mem.Same m (m.write 8 (a + BitVec.ofNat 64 w.1).toNat w.2.toNat) b k := by
        rw [haddr]
        exact Mem.write_same hout.1
      exact hone.trans (ih _ hout.2 hall.2)

/-- Bytes outside of the frame are the same. -/
theorem putWords_outside (m : Mem) (hfits : Fits a n ws) (hout : b + k ≤ a.toNat ∨ a.toNat + n ≤ b) :
    Mem.Same m (putWords m a ws) b k := by
  refine putWords_same m hfits fun j hj => ?_
  have := hfits.2 j hj
  omega

/-- Every word is where it was put. -/
theorem word_putWords (hfits : Fits a n ws) (hapart : Apart (ws.map Prod.fst)) (hw : w ∈ ws) :
    word (putWords m a ws) (a.toNat + w.1) = w.2 := by
  induction ws generalizing m with
  | nil => cases hw
  | cons w' ws ih =>
      rw [List.map_cons, Apart, List.pairwise_cons] at hapart
      obtain ⟨hwrap, hall⟩ := hfits
      rw [List.map_cons, List.forall_mem_cons] at hall
      cases List.mem_cons.mp hw with
      | inr hw => exact ih ⟨hwrap, hall.2⟩ hapart.2 hw
      | inl he =>
          subst he
          have haddr : (a + BitVec.ofNat 64 w.1).toNat = a.toNat + w.1 := toNat_add_offset (by omega)
          have hput : word (m.write 8 (a + BitVec.ofNat 64 w.1).toNat w.2.toNat) (a.toNat + w.1) = w.2 := by
            rw [haddr]
            exact word_write m _ w.2
          -- the later words leave it alone
          have hlater := putWords_same (m.write 8 (a + BitVec.ofNat 64 w.1).toNat w.2.toNat) (b := a.toNat + w.1) (k := 8)
            ⟨hwrap, hall.2⟩ fun j hj => by
              have := hapart.1 j hj
              omega
          exact (word_congr hlater).trans hput

end Lib.El1
