import Mathlib.Data.Finset.Card
import Mathlib.Data.Int.GCD
import Mathlib.Data.Int.ModEq
import Mathlib.Data.Nat.Find
import Mathlib.Logic.Function.Iterate
import Mathlib.Tactic.Ring

/-!
# Sequences that go on for ever

What a deterministic sequence over finitely many values reaches, it reaches early. A counter that grows by `a`
modulo `n` meets all values that agree with its first one modulo the greatest common divisor of `a` and `n`.
-/

namespace Lib

/-- The values are below `N`, so a sequence that has not met `P` after `N` more steps never does. -/
theorem exists_iterate_le {f : Nat → Nat} {N a : Nat} {P : Nat → Prop} (hf : ∀ x, f x < N)
    (h : ∃ j, P (f^[j] a)) : ∃ j ≤ N, P (f^[j] a) := by
  classical
  refine ⟨Nat.find h, Nat.not_lt.mp fun hlt => ?_, Nat.find_spec h⟩
  have hmaps : ∀ i ∈ Finset.range (N + 1), f^[i + 1] a ∈ Finset.range N := by
    intro i _
    rw [Function.iterate_succ_apply']
    exact Finset.mem_range.mpr (hf _)
  obtain ⟨i, hi, k, hk, hne, heq⟩ :=
    Finset.exists_ne_map_eq_of_card_lt_of_maps_to (by simp) hmaps
  -- the later visit of the same value can be left out
  have hearly : ∀ {i k}, i < k → k < N + 1 → f^[i + 1] a = f^[k + 1] a → False := by
    intro i k hik hk heq
    refine Nat.find_min h (m := i + 1 + (Nat.find h - (k + 1))) (by omega) ?_
    have hshift : f^[i + 1 + (Nat.find h - (k + 1))] a = f^[Nat.find h] a := by
      have hsplit : Nat.find h = Nat.find h - (k + 1) + (k + 1) := by omega
      rw [Nat.add_comm, Function.iterate_add_apply, heq, ← Function.iterate_add_apply, ← hsplit]
    rw [hshift]
    exact Nat.find_spec h
  rw [Finset.mem_range] at hi hk
  cases Nat.lt_or_gt_of_ne hne with
  | inl hlt => exact hearly hlt hk heq
  | inr hgt => exact hearly hgt hi heq.symm

variable {n a r s t : Nat}

theorem add_mul_mod_gcd (r a n j : Nat) : (r + j * a) % n % Nat.gcd a n = r % Nat.gcd a n := by
  have hdvd : Nat.gcd a n ∣ j * a := Dvd.dvd.mul_left (Nat.gcd_dvd_left a n) j
  rw [Nat.mod_mod_of_dvd _ (Nat.gcd_dvd_right a n), Nat.add_mod, Nat.mod_eq_zero_of_dvd hdvd, Nat.add_zero,
    Nat.mod_mod]

/-- The counter meets every value it can meet, within `n` steps. -/
theorem exists_add_mul_mod (ht : t < n) (h : t % Nat.gcd a n = r % Nat.gcd a n) :
    ∃ j < n, (r + (j + 1) * a) % n = t := by
  have hn : (n : Int) ≠ 0 := by omega
  obtain ⟨q, hq⟩ : (Nat.gcd a n : Int) ∣ t - r := (Int.natCast_modEq_iff.mpr h.symm).dvd
  -- by Bézout `x * a` is `t - r` modulo `n`
  have hbezout : (Nat.gcd a n : Int) = a * Nat.gcdA a n + n * Nat.gcdB a n := Nat.gcd_eq_gcd_ab a n
  have hx : (t : Int) ≡ r + Nat.gcdA a n * q * a [ZMOD n] := by
    refine Int.modEq_iff_dvd.mpr ⟨-(Nat.gcdB a n * q), ?_⟩
    have hsum : (t : Int) = r + (a * Nat.gcdA a n + n * Nat.gcdB a n) * q := by
      rw [← hbezout, ← hq]
      omega
    rw [hsum]
    ring
  have hj := Int.emod_nonneg (Nat.gcdA a n * q - 1) hn
  have hjn := Int.emod_lt_of_pos (Nat.gcdA a n * q - 1) (show (0 : Int) < n by omega)
  obtain ⟨j, hj⟩ := Int.eq_ofNat_of_zero_le hj
  have hmod : (j : Int) ≡ Nat.gcdA a n * q - 1 [ZMOD n] := by
    have := Int.mod_modEq (Nat.gcdA a n * q - 1) n
    rwa [hj] at this
  have hcong : ((r + (j + 1) * a : Nat) : Int) ≡ (t : Int) [ZMOD n] := by
    refine Int.ModEq.trans ?_ hx.symm
    have hstep := ((hmod.add_right 1).mul_right (a : Int)).add_left (r : Int)
    rw [Int.sub_add_cancel] at hstep
    exact_mod_cast hstep
  refine ⟨j, by omega, ?_⟩
  have hnat : (r + (j + 1) * a) % n = t % n := Int.natCast_modEq_iff.mp hcong
  rw [hnat, Nat.mod_eq_of_lt ht]

/-- The counter gets as large as `n - g + r % g`, where `g` is the greatest common divisor. -/
theorem exists_le_add_mul_mod (hn : 0 < n) (hs : s ≤ n - Nat.gcd a n + r % Nat.gcd a n) :
    ∃ j < n, s ≤ (r + (j + 1) * a) % n := by
  have hg : 0 < Nat.gcd a n := Nat.gcd_pos_of_pos_right a hn
  have hle := Nat.le_of_dvd hn (Nat.gcd_dvd_right a n)
  have hmod := Nat.mod_lt r hg
  have hsub : (n - Nat.gcd a n) % Nat.gcd a n = 0 :=
    Nat.mod_eq_zero_of_dvd (Nat.dvd_sub (Nat.gcd_dvd_right a n) (Nat.dvd_refl _))
  obtain ⟨j, hjn, hj⟩ := exists_add_mul_mod (t := n - Nat.gcd a n + r % Nat.gcd a n) (a := a) (n := n) (r := r)
    (by omega) (by rw [Nat.add_mod, hsub, Nat.zero_add, Nat.mod_mod, Nat.mod_mod])
  exact ⟨j, hjn, by rw [hj]; exact hs⟩

/-- It never gets larger. -/
theorem add_mul_mod_le (hn : 0 < n) (j : Nat) :
    (r + j * a) % n ≤ n - Nat.gcd a n + r % Nat.gcd a n := by
  have hlt := Nat.mod_lt (r + j * a) hn
  have hrest := add_mul_mod_gcd r a n j
  generalize (r + j * a) % n = t at *
  have hdiv : t / Nat.gcd a n + 1 ≤ n / Nat.gcd a n :=
    Nat.div_lt_div_of_lt_of_dvd (Nat.gcd_dvd_right a n) hlt
  have hmul := Nat.mul_le_mul_right (Nat.gcd a n) hdiv
  rw [Nat.div_mul_cancel (Nat.gcd_dvd_right a n), Nat.succ_mul] at hmul
  have hsplit := Nat.div_add_mod' t (Nat.gcd a n)
  omega

end Lib
