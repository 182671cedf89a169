import Mathlib.Algebra.BigOperators.Fin
import Mathlib.Algebra.BigOperators.Ring.Finset
import Mathlib.Algebra.Order.BigOperators.Group.Finset

/-!
# Counting references

A finite family of slots holds pointers; `refs f p` counts the slots whose pointer has the property `p`. The
lemmas say how the number changes with the slots: it is what a reference count has to equal.
-/

namespace Lib

open Finset

variable {α β κ : Type*} [Fintype α] [Fintype β]

/-- Does the slot hold a pointer with the property? -/
def holds (o : Option κ) (p : κ → Bool) : Nat := if o.any p then 1 else 0

/-- The number of slots that hold a pointer with the property. -/
def refs (f : α → Option κ) (p : κ → Bool) : Nat := #{x | (f x).any p = true}

@[simp] theorem holds_none (p : κ → Bool) : holds none p = 0 := rfl

@[simp] theorem holds_some (k : κ) (p : κ → Bool) : holds (some k) p = if p k then 1 else 0 := rfl

theorem refs_eq_sum (f : α → Option κ) (p : κ → Bool) : refs f p = ∑ x, holds (f x) p := by
  simp only [refs, holds, card_filter]

theorem refs_eq_zero_iff {f : α → Option κ} {p : κ → Bool} :
    refs f p = 0 ↔ ∀ x k, f x = some k → p k = false := by
  rw [refs, card_eq_zero, filter_eq_empty_iff]
  constructor
  · intro h x k hx
    simpa [hx] using h (mem_univ x)
  · intro h x _
    cases hx : f x with
    | none => simp
    | some k => simp [h x k hx]

theorem refs_pos {f : α → Option κ} {p : κ → Bool} {x : α} {k : κ} (hx : f x = some k) (hp : p k = true) :
    0 < refs f p := by
  refine Nat.pos_of_ne_zero fun h => ?_
  have := refs_eq_zero_iff.mp h x k hx
  rw [hp] at this
  cases this

theorem refs_congr {f : α → Option κ} {p p' : κ → Bool} (h : ∀ x k, f x = some k → p k = p' k) :
    refs f p = refs f p' := by
  simp only [refs_eq_sum]
  refine sum_congr rfl fun x _ => ?_
  cases hx : f x with
  | none => rfl
  | some k => simp [h x k hx]

theorem refs_none (p : κ → Bool) : refs (fun _ : α => (none : Option κ)) p = 0 :=
  refs_eq_zero_iff.mpr nofun

/-- Writing one slot. -/
theorem refs_update [DecidableEq α] (f : α → Option κ) (x : α) (o : Option κ) (p : κ → Bool) :
    refs (Function.update f x o) p + holds (f x) p = refs f p + holds o p := by
  have hrest : ∀ y ∈ univ.erase x, holds (Function.update f x o y) p = holds (f y) p := fun y hy => by
    rw [Function.update_of_ne (ne_of_mem_erase hy)]
  simp only [refs_eq_sum, ← add_sum_erase univ _ (mem_univ x), sum_congr rfl hrest, Function.update_self]
  omega

theorem refs_prod (f : α × β → Option κ) (p : κ → Bool) :
    refs f p = ∑ a, refs (fun b => f (a, b)) p := by
  simp only [refs_eq_sum, ← univ_product_univ, sum_product]

/-- Writing the slots of one row. -/
theorem refs_row [DecidableEq α] {f g : α × β → Option κ} {a : α} (h : ∀ a', a' ≠ a → ∀ b, g (a', b) = f (a', b))
    (p : κ → Bool) :
    refs g p + refs (fun b => f (a, b)) p = refs f p + refs (fun b => g (a, b)) p := by
  have hrest : ∀ a' ∈ univ.erase a, refs (fun b => g (a', b)) p = refs (fun b => f (a', b)) p :=
    fun a' ha' => by simp only [h a' (ne_of_mem_erase ha')]
  simp only [refs_prod, ← add_sum_erase univ _ (mem_univ a), sum_congr rfl hrest]
  omega

theorem refs_row_le (f : α × β → Option κ) (a : α) (p : κ → Bool) :
    refs (fun b => f (a, b)) p ≤ refs f p := by
  rw [refs_prod]
  exact single_le_sum (f := fun a => refs (fun b => f (a, b)) p) (fun _ _ => Nat.zero_le _) (mem_univ a)

theorem refs_le_card (f : α → Option κ) (p : κ → Bool) : refs f p ≤ Fintype.card α := card_filter_le _ _

/-- A loop over all slots meets each reference once. -/
theorem countP_finRange {n : Nat} (f : Fin n → Option κ) (p : κ → Bool) :
    (List.finRange n).countP (fun i => (f i).any p) = refs f p := by
  have h : ∀ xs : List (Fin n), xs.countP (fun i => (f i).any p) = (xs.map fun i => holds (f i) p).sum := by
    intro xs
    induction xs with
    | nil => rfl
    | cons x xs ih =>
        simp only [List.countP_cons, List.map_cons, List.sum_cons, ih, holds]
        omega
  rw [h, refs_eq_sum, Fin.sum_univ_def]

end Lib
