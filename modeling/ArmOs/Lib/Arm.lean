import Mathlib.Algebra.Ring.Nat
import Mathlib.Logic.Function.Basic
import Mathlib.Logic.Relation

/-!
# A fragment of AArch64

Instructions on eight registers and a memory of bytes, with the two flags that unsigned comparisons set. The code is a
list of instructions and labels.
-/

namespace Lib.Arm

abbrev Word := BitVec 64

/-! ## Bytes of words -/

/-- A byte at every 64-bit address. -/
abbrev Store := Word → UInt8

/-- The `n`-byte little-endian number at `x`. -/
def load (m : Store) : (n : Nat) → (x : Word) → Nat
  | 0, _ => 0
  | n + 1, x => (m x).toNat + 256 * load m n (x + 1)

/-- Store the low `n` bytes of `v` at `x`, little-endian. -/
def store (m : Store) (n : Nat) (x : Word) (v : Nat) : Store :=
  fun a => if (a - x).toNat < n then UInt8.ofNat (v / 256 ^ (a - x).toNat) else m a

variable {m m' : Store} {n k : Nat} {a x y : Word}

theorem load_lt (m : Store) (n : Nat) (x : Word) : load m n x < 256 ^ n := by
  induction n generalizing x with
  | zero => simp [load]
  | succ n ih =>
      have hbyte : (m x).toNat < 256 := (m x).toNat_lt
      have hrest := ih (x + 1)
      simp only [load, Nat.pow_succ]
      omega

theorem load_digit (hk : k < n) : load m n x / 256 ^ k % 256 = (m (x + BitVec.ofNat 64 k)).toNat := by
  induction k generalizing n x with
  | zero =>
      obtain ⟨n, rfl⟩ := Nat.exists_eq_add_one_of_ne_zero (Nat.ne_of_gt hk)
      have hbyte : (m x).toNat < 256 := (m x).toNat_lt
      simp only [load, Nat.pow_zero, Nat.div_one, BitVec.ofNat_eq_ofNat, BitVec.add_zero]
      omega
  | succ k ih =>
      obtain ⟨n, rfl⟩ := Nat.exists_eq_add_one_of_ne_zero (Nat.ne_of_gt (Nat.zero_lt_of_lt hk))
      have hbyte : (m x).toNat < 256 := (m x).toNat_lt
      have hdiv : load m (n + 1) x / 256 = load m n (x + 1) := by
        simp only [load]
        omega
      have haddr : x + 1 + BitVec.ofNat 64 k = x + BitVec.ofNat 64 (k + 1) := by
        rw [BitVec.ofNat_add, BitVec.add_assoc, BitVec.add_comm (BitVec.ofNat 64 k)]
        rfl
      rw [Nat.pow_succ', ← Nat.div_div_eq_div_mul, hdiv, ih (Nat.lt_of_succ_lt_succ hk), haddr]

/-- Storing what was loaded copies the bytes. -/
theorem store_load : store m' n y (load m n x) a = if (a - y).toNat < n then m (x + (a - y)) else m' a := by
  unfold store
  split
  · rename_i hin
    have hdigit := load_digit (m := m) (x := x) hin
    rw [BitVec.ofNat_toNat, BitVec.setWidth_eq] at hdigit
    rw [← UInt8.toNat_inj, UInt8.toNat_ofNat', hdigit]
  · rfl

/-! ## Instructions -/

inductive Reg
  | x0 | x1 | x2 | x3 | x4 | x5 | x6 | x7
  deriving DecidableEq, Repr

/-- The conditions of the branches: equal, not equal, and unsigned `≥`, `<` and `≤`. -/
inductive Cond
  | eq | ne | hs | lo | ls
  deriving DecidableEq, Repr

/-- Instructions, with labels of the type `ℓ`. -/
inductive Instr (ℓ : Type)
  | label (l : ℓ)
  | mov (d n : Reg)
  | movImm (d : Reg) (v : Word)
  | cmp (n m : Reg)
  | cmpImm (n : Reg) (v : Word)
  | add (d n m : Reg)
  | subImm (d n : Reg) (v : Word)
  | subsImm (d n : Reg) (v : Word)
  | neg (d n : Reg)
  /-- `ldr` to and `str` from the low half of a register. -/
  | ldrW (t n : Reg)
  | strW (t n : Reg)
  | ldrb (t n : Reg)
  | strb (t n : Reg)
  | b (l : ℓ)
  | bCond (c : Cond) (l : ℓ)
  | ret
  deriving DecidableEq

structure State where
  regs : Reg → Word
  z : Bool
  c : Bool
  mem : Store
  pc : Nat

namespace State

def next (s : State) : State := { s with pc := s.pc + 1 }

def set (s : State) (d : Reg) (v : Word) : State := { s with regs := Function.update s.regs d v }

/-- The flags of `u - v`. -/
def compare (s : State) (u v : Word) : State := { s with z := u = v, c := v ≤ u }

def holds (s : State) : Cond → Bool
  | .eq => s.z
  | .ne => !s.z
  | .hs => s.c
  | .lo => !s.c
  | .ls => !s.c || s.z

end State

variable {ℓ : Type} [DecidableEq ℓ]

/-- The place of a label. -/
def place (code : List (Instr ℓ)) (l : ℓ) : Nat := code.idxOf (.label l)

def execute (code : List (Instr ℓ)) (s : State) : Instr ℓ → Option State
  | .label _ => some s.next
  | .mov d n => some (s.set d (s.regs n)).next
  | .movImm d v => some (s.set d v).next
  | .cmp n m => some (s.compare (s.regs n) (s.regs m)).next
  | .cmpImm n v => some (s.compare (s.regs n) v).next
  | .add d n m => some (s.set d (s.regs n + s.regs m)).next
  | .subImm d n v => some (s.set d (s.regs n - v)).next
  | .subsImm d n v => some ((s.compare (s.regs n) v).set d (s.regs n - v)).next
  | .neg d n => some (s.set d (-s.regs n)).next
  | .ldrW t n => some (s.set t (BitVec.ofNat 64 (load s.mem 4 (s.regs n)))).next
  | .strW t n => some ({ s with mem := store s.mem 4 (s.regs n) (s.regs t).toNat }).next
  | .ldrb t n => some (s.set t (BitVec.ofNat 64 (load s.mem 1 (s.regs n)))).next
  | .strb t n => some ({ s with mem := store s.mem 1 (s.regs n) (s.regs t).toNat }).next
  | .b l => some { s with pc := place code l }
  | .bCond c l => if s.holds c then some { s with pc := place code l } else some s.next
  | .ret => none

/-- One instruction. There is no step from `ret`. -/
def step (code : List (Instr ℓ)) (s : State) : Option State :=
  match code[s.pc]? with
  | some i => execute code s i
  | none => none

/-- `n` instructions. -/
def run (code : List (Instr ℓ)) : (n : Nat) → State → Option State
  | 0, s => some s
  | n + 1, s => (step code s).bind (run code n)

/-! ## Runs of the code -/

variable {code : List (Instr ℓ)} {s t u : State}

def Steps (code : List (Instr ℓ)) : State → State → Prop := Relation.ReflTransGen fun s t => step code s = some t

/-- The code runs from `s` on and returns in the state `t`. -/
def Returns (code : List (Instr ℓ)) (s t : State) : Prop := Steps code s t ∧ code[t.pc]? = some .ret

theorem steps_of_run (h : run code n s = some t) : Steps code s t := by
  induction n generalizing s with
  | zero =>
      cases h
      exact .refl
  | succ n ih =>
      obtain ⟨u, hu, h⟩ := Option.bind_eq_some_iff.mp h
      exact .head hu (ih h)

theorem Steps.trans (h : Steps code s t) (h' : Steps code t u) : Steps code s u := Relation.ReflTransGen.trans h h'

theorem steps_taken {c : Cond} {l : ℓ} (hcode : code[s.pc]? = some (.bCond c l)) (h : s.holds c) :
    Steps code s { s with pc := place code l } := by
  have hstep : step code s = some { s with pc := place code l } := by
    unfold step
    rw [hcode]
    exact if_pos h
  exact .single hstep

theorem steps_fall {c : Cond} {l : ℓ} (hcode : code[s.pc]? = some (.bCond c l)) (h : ¬s.holds c) :
    Steps code s s.next := by
  have hstep : step code s = some s.next := by
    unfold step
    rw [hcode]
    exact if_neg h
  exact .single hstep

/-- The code returns in one state only. -/
theorem Returns.unique (h : Returns code s t) (h' : Returns code s u) : t = u := by
  have hstuck : ∀ {v w}, code[v.pc]? = some .ret → Steps code v w → v = w := by
    intro v w hret hsteps
    cases Relation.ReflTransGen.cases_head hsteps with
    | inl heq => exact heq
    | inr hmore =>
        obtain ⟨v', hv', -⟩ := hmore
        have hnone : step code v = none := by
          unfold step
          rw [hret]
          rfl
        rw [hnone] at hv'
        cases hv'
  have hunique : Relator.RightUnique fun s t => step code s = some t := fun a b c hb hc =>
    Option.some.inj (hb.symm.trans hc)
  cases Relation.ReflTransGen.total_of_right_unique hunique h.1 h'.1 with
  | inl hsteps => exact hstuck h.2 hsteps
  | inr hsteps => exact (hstuck h'.2 hsteps).symm

end Lib.Arm
