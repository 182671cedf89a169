import Mathlib.Data.List.Perm.Subperm
import Mathlib.Data.List.Range
import Mathlib.Algebra.Order.Group.Nat

/-!
# Data cut into pieces of one size

A list of pieces, each of `n` elements, and the list of all their elements. An index of the long list is the
number of a piece and an index of that piece.
-/

namespace Lib

variable {α β : Type*} {f g : α → List β} {xs : List α} {n : Nat}

theorem length_flatMap_of_eq (hf : ∀ x ∈ xs, (f x).length = n) : (xs.flatMap f).length = xs.length * n := by
  induction xs with
  | nil => simp
  | cons x xs ih =>
      rw [List.flatMap_cons, List.length_append, hf x List.mem_cons_self,
        ih fun y hy => hf y (List.mem_cons_of_mem x hy), List.length_cons, Nat.succ_mul, Nat.add_comm]

/-- Dropping whole pieces. -/
theorem drop_flatMap (hf : ∀ x ∈ xs, (f x).length = n) (q o : Nat) :
    (xs.flatMap f).drop (q * n + o) = ((xs.drop q).flatMap f).drop o := by
  induction q generalizing xs with
  | zero => simp
  | succ q ih =>
      cases xs with
      | nil => simp
      | cons x xs =>
          have hx := hf x List.mem_cons_self
          have hsplit : (q + 1) * n + o = (f x).length + (q * n + o) := by
            rw [hx, Nat.succ_mul]
            omega
          rw [List.flatMap_cons, hsplit, List.drop_length_add_append, List.drop_succ_cons,
            ih fun y hy => hf y (List.mem_cons_of_mem x hy)]

/-- Different numbers below `n` are at most `n` of them. -/
theorem length_le_of_nodup {ns : List Nat} (h : ns.Nodup) (hlt : ∀ i ∈ ns, i < n) : ns.length ≤ n := by
  have hsub : ns ⊆ List.range n := fun i hi => List.mem_range.mpr (hlt i hi)
  have hle := (List.subperm_of_subset h hsub).length_le
  rwa [List.length_range] at hle

end Lib
