import Mathlib.Data.List.Basic

/-!
# Runs of a labelled transition system

A run is a finite sequence of labelled steps. A property of the reachable states is proved by showing
that it holds at the start and that every step keeps it; `Run.invariant` is that induction, once.
-/

namespace Lib

variable {σ ℓ : Type*}

/-- `Run step s ls t`: the steps labelled `ls`, in that order, lead from `s` to `t`. -/
inductive Run (step : σ → ℓ → σ → Prop) : σ → List ℓ → σ → Prop
  | nil (s : σ) : Run step s [] s
  | snoc {s t u : σ} {ls : List ℓ} {l : ℓ} : Run step s ls t → step t l u → Run step s (ls ++ [l]) u

/-- The steps of `step` that meet the guard `G`, a condition on the state before and the label. -/
def Guarded (G : σ → ℓ → Prop) (step : σ → ℓ → σ → Prop) : σ → ℓ → σ → Prop :=
  fun s l t => G s l ∧ step s l t

namespace Run

variable {step : σ → ℓ → σ → Prop} {s t u : σ} {ls ks : List ℓ}

theorem invariant {I : σ → Prop} (h : Run step s ls t) (h₀ : I s)
    (hstep : ∀ ⦃a l b⦄, I a → step a l b → I b) : I t := by
  induction h with
  | nil => exact h₀
  | snoc _ hl ih => exact hstep ih hl

/-- The invariant may speak of the labels of the run so far. -/
theorem history {I : List ℓ → σ → Prop} (h : Run step s ls t) (h₀ : I [] s)
    (hstep : ∀ ⦃hs a l b⦄, I hs a → step a l b → I (hs ++ [l]) b) : I ls t := by
  induction h with
  | nil => exact h₀
  | snoc _ hl ih => exact hstep ih hl

theorem mono {step' : σ → ℓ → σ → Prop} (h : Run step s ls t)
    (hsub : ∀ ⦃a l b⦄, step a l b → step' a l b) : Run step' s ls t := by
  induction h with
  | nil => exact .nil _
  | snoc _ hl ih => exact .snoc ih (hsub hl)

/-- A run seen through a map that turns the steps into steps, as long as the invariant holds. -/
theorem map {τ : Type*} {step' : τ → ℓ → τ → Prop} {I : σ → Prop} (f : σ → τ) (h : Run step s ls t) (h₀ : I s)
    (hstep : ∀ ⦃a l b⦄, I a → step a l b → I b ∧ step' (f a) l (f b)) : I t ∧ Run step' (f s) ls (f t) := by
  induction h with
  | nil => exact ⟨h₀, .nil _⟩
  | snoc _ hl ih =>
      obtain ⟨hI, hrun⟩ := ih
      obtain ⟨hI', hl'⟩ := hstep hI hl
      exact ⟨hI', .snoc hrun hl'⟩

theorem guarded {G : ℓ → Prop} (h : Run step s ls t) (hG : ∀ l ∈ ls, G l) :
    Run (Guarded (fun _ l => G l) step) s ls t := by
  induction h with
  | nil => exact .nil _
  | snoc _ hl ih =>
      simp only [List.mem_append, List.mem_singleton] at hG
      exact .snoc (ih fun l hl => hG l (.inl hl)) ⟨hG _ (.inr rfl), hl⟩

theorem single {l : ℓ} (h : step s l t) : Run step s [l] t := .snoc (.nil s) h

theorem append (h : Run step s ls t) (h' : Run step t ks u) : Run step s (ls ++ ks) u := by
  induction h' with
  | nil => simpa using h
  | snoc _ hl ih => simpa [← List.append_assoc] using Run.snoc ih hl

theorem of_nil (h : Run step s [] t) : t = s := by
  generalize hks : ([] : List ℓ) = ks at h
  cases h with
  | nil => rfl
  | snoc => simp at hks

theorem of_snoc {l : ℓ} (h : Run step s (ls ++ [l]) u) : ∃ t, Run step s ls t ∧ step t l u := by
  generalize hks : ls ++ [l] = ks at h
  cases h with
  | nil => simp at hks
  | snoc h hl =>
      obtain ⟨rfl, rfl⟩ := List.concat_inj.mp (by simpa using hks)
      exact ⟨_, h, hl⟩

end Run

end Lib
