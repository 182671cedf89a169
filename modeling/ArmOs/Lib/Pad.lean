import Mathlib.Data.List.DropRight

/-!
# Fields of a fixed width

A field holds a list and is filled up with a blank.
-/

namespace Lib

variable {α : Type} {b x : α} {n : Nat} {xs : List α}

/-- The list, filled up to `n` elements with `b`. -/
def pad (b : α) (n : Nat) (xs : List α) : List α := xs ++ List.replicate (n - xs.length) b

@[simp] theorem pad_nil (b : α) (n : Nat) : pad b n [] = List.replicate n b := by simp [pad]

/-- Storing to the first blank appends. -/
theorem pad_set (h : xs.length < n) : (pad b n xs).set xs.length x = pad b n (xs ++ [x]) := by
  obtain ⟨k, rfl⟩ := Nat.exists_eq_add_of_lt h
  have hk : xs.length + k + 1 - xs.length = k + 1 := by omega
  have hk' : xs.length + k + 1 - (xs.length + 1) = k := by omega
  simp [pad, hk, hk', List.replicate_succ]

variable [DecidableEq α]

/-- The list without the blanks at its end. -/
def trim (b : α) (xs : List α) : List α := xs.rdropWhile (· = b)

theorem trim_initial (b : α) (xs : List α) : trim b xs <+: xs := List.rdropWhile_prefix _ _

theorem mem_of_mem_trim (h : x ∈ trim b xs) : x ∈ xs := (trim_initial b xs).subset h

/-- A field is what it holds, filled up again. -/
theorem pad_trim (h : xs.length = n) : pad b n (trim b xs) = xs := by
  subst h
  induction xs using List.reverseRecOn with
  | nil => rfl
  | append_singleton xs x ih =>
      by_cases hx : x = b
      · subst hx
        have htrim : trim x (xs ++ [x]) = trim x xs := List.rdropWhile_concat_pos _ _ _ (by simp)
        have hle := (trim_initial x xs).length_le
        have hsub : (xs ++ [x]).length - (trim x xs).length = xs.length - (trim x xs).length + 1 := by
          rw [List.length_append, List.length_singleton]
          omega
        rw [htrim, pad, hsub, List.replicate_succ', ← List.append_assoc]
        exact congrArg (· ++ [x]) ih
      · have htrim : trim b (xs ++ [x]) = xs ++ [x] := List.rdropWhile_concat_neg _ _ _ (by simpa using hx)
        rw [htrim, pad, Nat.sub_self, List.replicate_zero, List.append_nil]

end Lib
