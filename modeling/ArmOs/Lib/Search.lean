import Mathlib.Tactic.ByContra

/-!
# Searching for the least index
-/

namespace Lib

/-- The first index from `i` on, among `n`, that satisfies `p`. -/
def findFrom (p : Nat → Bool) : (n i : Nat) → Option Nat
  | 0, _ => none
  | n + 1, i => if p i then some i else findFrom p n (i + 1)

theorem findFrom_congr {p q : Nat → Bool} {n i : Nat} (h : ∀ k, i ≤ k → k < i + n → p k = q k) :
    findFrom p n i = findFrom q n i := by
  induction n generalizing i with
  | zero => rfl
  | succ n ih =>
      rw [findFrom, findFrom, h i (Nat.le_refl i) (by omega), ih fun k hk hk' => h k (by omega) (by omega)]

theorem findFrom_eq_some {p : Nat → Bool} {n i j : Nat} :
    findFrom p n i = some j ↔ i ≤ j ∧ j < i + n ∧ p j = true ∧ ∀ k, i ≤ k → k < j → p k = false := by
  induction n generalizing i with
  | zero => simp [findFrom]; omega
  | succ n ih =>
      simp only [findFrom]
      cases hp : p i with
      | true =>
          simp only [↓reduceIte, Option.some.injEq]
          constructor
          · rintro rfl
            exact ⟨by omega, by omega, hp, fun k hk hk' => by omega⟩
          · rintro ⟨hij, _, _, hmin⟩
            by_contra hne
            have := hmin i (Nat.le_refl i) (by omega)
            simp [hp] at this
      | false =>
          simp only [Bool.false_eq_true, ↓reduceIte, ih]
          constructor
          · rintro ⟨h₁, h₂, h₃, h₄⟩
            refine ⟨by omega, by omega, h₃, fun k hk hk' => ?_⟩
            by_cases hki : k = i
            · exact hki ▸ hp
            · exact h₄ k (by omega) hk'
          · rintro ⟨h₁, h₂, h₃, h₄⟩
            have hne : i ≠ j := by rintro rfl; simp [hp] at h₃
            exact ⟨by omega, by omega, h₃, fun k hk hk' => h₄ k (by omega) hk'⟩

theorem findFrom_eq_none {p : Nat → Bool} {n i : Nat} :
    findFrom p n i = none ↔ ∀ k, i ≤ k → k < i + n → p k = false := by
  induction n generalizing i with
  | zero => simp [findFrom]; omega
  | succ n ih =>
      simp only [findFrom]
      cases hp : p i with
      | true =>
          simp only [↓reduceIte, reduceCtorEq, false_iff, not_forall]
          exact ⟨i, Nat.le_refl i, by omega, by simp [hp]⟩
      | false =>
          simp only [Bool.false_eq_true, ↓reduceIte, ih]
          constructor
          · intro h k hk hk'
            by_cases hki : k = i
            · exact hki ▸ hp
            · exact h k (by omega) (by omega)
          · intro h k hk hk'
            exact h k (by omega) (by omega)

end Lib
