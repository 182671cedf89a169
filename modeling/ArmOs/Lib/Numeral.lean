import Mathlib.Data.Nat.Digits.Lemmas

/-!
# Numerals

The numeral of a number in a base: its digits, the most significant one first. Zero has the numeral 0.
-/

namespace Lib

variable {α : Type} {b n k d : Nat} {ds : List Nat}

def numeral (b n : Nat) : List Nat := if n = 0 then [0] else (Nat.digits b n).reverse

theorem numeral_of_lt (h : n < b) : numeral b n = [n] := by
  rw [numeral]
  split
  · subst n
    rfl
  · rw [Nat.digits_of_lt b n ‹_› h]
    rfl

/-- The last digit comes off by a division. -/
theorem numeral_snoc (hb : 1 < b) (h : b ≤ n) : numeral b n = numeral b (n / b) ++ [n % b] := by
  have hn : n ≠ 0 := by omega
  have hdiv : n / b ≠ 0 := (Nat.div_pos h (Nat.lt_of_succ_lt hb)).ne'
  rw [numeral, if_neg hn, numeral, if_neg hdiv, Nat.digits_def' hb (Nat.pos_of_ne_zero hn), List.reverse_cons]

@[simp] theorem numeral_ne_nil (b n : Nat) : numeral b n ≠ [] := by
  rw [numeral]
  split
  · simp
  · simpa using Nat.digits_ne_nil_iff_ne_zero.mpr ‹_›

theorem numeral_digit_lt (hb : 1 < b) (h : d ∈ numeral b n) : d < b := by
  rw [numeral] at h
  split at h
  · rw [List.mem_singleton.mp h]
    exact Nat.lt_of_succ_lt hb
  · exact Nat.digits_lt_base hb (List.mem_reverse.mp h)

/-- There is no leading zero, except for zero itself. -/
theorem numeral_head (h : (numeral b n).head? = some 0) : numeral b n = [0] ∧ n = 0 := by
  rw [numeral] at h ⊢
  split
  · exact ⟨rfl, ‹_›⟩
  · rename_i hn
    rw [if_neg hn, List.head?_reverse] at h
    have hne : Nat.digits b n ≠ [] := Nat.digits_ne_nil_iff_ne_zero.mpr hn
    rw [List.getLast?_eq_getLast_of_ne_nil hne] at h
    exact absurd (Option.some.inj h) (Nat.getLast_digit_ne_zero b hn)

theorem numeral_length_le (hb : 1 < b) (hk : 0 < k) (h : n < b ^ k) : (numeral b n).length ≤ k := by
  rw [numeral]
  split
  · exact hk
  · rw [List.length_reverse]
    exact (Nat.digits_length_le_iff hb n).mpr h

/-- The number of a numeral whose digits have the values `value`, if all of them have one. -/
def parse (value : α → Option Nat) (b : Nat) (xs : List α) : Option Nat :=
  xs.foldlM (fun n x => (value x).map (b * n + ·)) 0

theorem parse_snoc (value : α → Option Nat) (b : Nat) (xs : List α) (x : α) :
    parse value b (xs ++ [x]) = (parse value b xs).bind fun n => (value x).map (b * n + ·) := by
  rw [parse, List.foldlM_append]
  simp [parse]

/-- Parsing a numeral gives the number back. -/
theorem parse_numeral {value : α → Option Nat} {glyph : Nat → α} (hb : 1 < b)
    (hglyph : ∀ d < b, value (glyph d) = some d) (n : Nat) : parse value b ((numeral b n).map glyph) = some n := by
  induction n using Nat.strongRecOn with
  | ind n ih =>
      rcases Nat.lt_or_ge n b with hlt | hge
      · simp [numeral_of_lt hlt, parse, hglyph n hlt]
      · have hpos : 0 < n := by omega
        have hmod : n % b < b := Nat.mod_lt n (by omega)
        rw [numeral_snoc hb hge, List.map_append, List.map_singleton, parse_snoc, ih _ (Nat.div_lt_self hpos hb),
          hglyph _ hmod]
        simp [Nat.div_add_mod]

end Lib
