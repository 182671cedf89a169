import Mathlib.Logic.Basic
import ArmOs.Lib.Except

/-!
# Operations with results

A component offers operations that return results. What they are for is said by `spec` on abstract values, and by `pre`
what a caller must see to. If each operation that is allowed does what `spec` says, then so does every sequence of them.
-/

namespace Lib

variable {σ α ο ρ ε : Type}

/-- Perform the operations one after the other and collect the results. -/
def performOps (step : σ → ο → Except ε (ρ × σ)) : σ → List ο → Except ε (List ρ × σ)
  | s, [] => .ok ([], s)
  | s, o :: os => do
      let (r, s) ← step s o
      let (rs, s) ← performOps step s os
      return (r :: rs, s)

/-- The results that are specified, and the abstract value after the operations. -/
def specOps (spec : α → ο → ρ × α) : α → List ο → List ρ × α
  | a, [] => ([], a)
  | a, o :: os => ((spec a o).1 :: (specOps spec (spec a o).2 os).1, (specOps spec (spec a o).2 os).2)

/-- Each of the operations is allowed when its turn comes. -/
def Allowed (pre : α → ο → Prop) (spec : α → ο → ρ × α) : α → List ο → Prop
  | _, [] => True
  | a, o :: os => pre a o ∧ Allowed pre spec (spec a o).2 os

variable {step : σ → ο → Except ε (ρ × σ)} {spec : α → ο → ρ × α} {pre : α → ο → Prop} {R : α → σ → Prop} {a : α} {s : σ}
  {os : List ο}

theorem performOps_refines
    (hstep : ∀ a s o, R a s → pre a o → ∃ t, step s o = .ok ((spec a o).1, t) ∧ R (spec a o).2 t)
    (h : R a s) (hallowed : Allowed pre spec a os) :
    ∃ t, performOps step s os = .ok ((specOps spec a os).1, t) ∧ R (specOps spec a os).2 t := by
  induction os generalizing a s with
  | nil => exact ⟨s, rfl, h⟩
  | cons o os ih =>
      obtain ⟨hpre, hrest⟩ := hallowed
      obtain ⟨u, hrun, hu⟩ := hstep a s o h hpre
      obtain ⟨t, hruns, ht⟩ := ih hu hrest
      refine ⟨t, ?_, ht⟩
      simp only [performOps, hrun, ok_bind, hruns]
      rfl

end Lib
