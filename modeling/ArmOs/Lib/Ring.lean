import Mathlib.Data.List.Basic
import Mathlib.Logic.Function.Basic

/-!
# Ring buffers

An array of `size` places used as a ring: reading goes on at `front`, writing at `tail`, and the buffer is empty
when the two are equal. So at most `size - 1` places are in use.
-/

namespace Lib

variable {α : Type*}

/-- The buffer holds `xs`, oldest first. -/
structure IsRing (buf : Nat → α) (size front tail : Nat) (xs : List α) : Prop where
  length_lt : xs.length < size
  front_lt : front < size
  tail_eq : tail = (front + xs.length) % size
  get : ∀ i (h : i < xs.length), buf ((front + i) % size) = xs[i]

theorem ring_index {size front i : Nat} (hf : front < size) (hi : i < size) :
    (front + i) % size = if front + i < size then front + i else front + i - size := by
  split
  · exact Nat.mod_eq_of_lt ‹_›
  · rw [Nat.mod_eq_sub_mod (by omega), Nat.mod_eq_of_lt (by omega)]

namespace IsRing

variable {buf : Nat → α} {size front tail : Nat} {x : α} {xs ys : List α}

theorem empty (buf : Nat → α) (hf : front < size) : IsRing buf size front front [] :=
  ⟨by simp only [List.length_nil]; omega, hf, (Nat.mod_eq_of_lt hf).symm, nofun⟩

theorem tail_lt (h : IsRing buf size front tail xs) : tail < size := by
  rw [h.tail_eq]
  exact Nat.mod_lt _ (by have := h.front_lt; omega)

/-- The write index is where the oldest element is only if there is none. -/
theorem front_eq_iff (h : IsRing buf size front tail xs) : front = tail ↔ xs = [] := by
  have hf := h.front_lt
  have hl := h.length_lt
  rw [h.tail_eq, ring_index hf hl, ← List.length_eq_zero_iff]
  split <;> omega

theorem full_iff (h : IsRing buf size front tail xs) : (tail + 1) % size = front ↔ xs.length + 1 = size := by
  have hf := h.front_lt
  have hl := h.length_lt
  rw [h.tail_eq, Nat.mod_add_mod, Nat.add_assoc]
  by_cases hfull : xs.length + 1 = size
  · simp [hfull, Nat.mod_eq_of_lt hf]
  · rw [ring_index hf (by omega)]
    split <;> omega

/-- Writing at `tail`, when there is room. -/
theorem push (h : IsRing buf size front tail xs) (hroom : xs.length + 1 < size) (x : α) :
    IsRing (Function.update buf tail x) size front ((tail + 1) % size) (xs ++ [x]) := by
  have hf := h.front_lt
  refine ⟨by simpa using hroom, hf, ?_, fun i hi => ?_⟩
  · rw [h.tail_eq, Nat.mod_add_mod]
    simp [Nat.add_assoc]
  · by_cases hlast : i = xs.length
    · subst hlast
      simp [h.tail_eq]
    · have hi' : i < xs.length := by
        simp only [List.length_append, List.length_singleton] at hi
        omega
      have hne : (front + i) % size ≠ tail := by
        rw [h.tail_eq, ring_index hf (by omega), ring_index hf (by omega)]
        split <;> split <;> omega
      rw [Function.update_of_ne hne, h.get i hi', List.getElem_append_left hi']

/-- Reading at `front`. -/
theorem pop (h : IsRing buf size front tail (x :: xs)) :
    buf front = x ∧ IsRing buf size ((front + 1) % size) tail xs := by
  have hl := h.length_lt
  simp only [List.length_cons] at hl
  refine ⟨?_, by omega, Nat.mod_lt _ (by omega), ?_, fun i hi => ?_⟩
  · have hget := h.get 0 (by simp)
    rw [Nat.add_zero, Nat.mod_eq_of_lt h.front_lt] at hget
    exact hget
  · rw [h.tail_eq, Nat.mod_add_mod, List.length_cons, Nat.add_assoc, Nat.add_comm 1]
  · rw [Nat.mod_add_mod, Nat.add_assoc, Nat.add_comm 1 i]
    exact h.get (i + 1) (by simpa using hi)

end IsRing

end Lib
