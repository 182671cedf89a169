import ArmOs.Lib.Run

/-!
# Families of private machines

Machines that share nothing. One of them takes a step at a time; it may end, and it may start others as its children.
What a machine has done since it was started is then a run of its own steps, whatever the others did in between.
-/

namespace Lib

variable {ι σ ℓ : Type*}

/-- The machine `i` takes a step with the label `l`, to its next state or to its end. -/
structure FamilyStep (step : σ → ℓ → Option σ → Prop) (child : σ → ℓ → σ → Prop) (i : ι) (l : ℓ) (f g : ι → Option σ) :
    Prop where
  own : ∀ u, f i = some u → step u l (g i)
  none : f i = none → g i = none
  others : ∀ j u, j ≠ i → f j = some u → g j = some u
  born : ∀ j v, j ≠ i → f j = Option.none → g j = some v → ∃ u, f i = some u ∧ child u l v

/-- Runs of the family, with the machines that take the steps. -/
abbrev FamilyRun (step : σ → ℓ → Option σ → Prop) (child : σ → ℓ → σ → Prop) :
    (ι → Option σ) → List (ι × ℓ) → (ι → Option σ) → Prop :=
  Run fun f l g => FamilyStep step child l.1 l.2 f g

/-- Runs of one machine that do not end it. -/
abbrev OwnRun (step : σ → ℓ → Option σ → Prop) : σ → List ℓ → σ → Prop := Run fun u l v => step u l (some v)

variable [DecidableEq ι]

/-- The steps of the machine `j`. -/
def ownSteps (j : ι) (ls : List (ι × ℓ)) : List ℓ := (ls.filter (·.1 = j)).map Prod.snd

theorem ownSteps_append (j : ι) (ls ls' : List (ι × ℓ)) : ownSteps j (ls ++ ls') = ownSteps j ls ++ ownSteps j ls' := by
  simp [ownSteps]

theorem ownSteps_self (j : ι) (l : ℓ) : ownSteps j [(j, l)] = [l] := by simp [ownSteps]

theorem ownSteps_other {i j : ι} (h : j ≠ i) (l : ℓ) : ownSteps j [(i, l)] = [] := by simp [ownSteps, h.symm]

variable {step : σ → ℓ → Option σ → Prop} {child : σ → ℓ → σ → Prop} {f g : ι → Option σ} {ls : List (ι × ℓ)} {j : ι}
  {u v : σ}

/-! ## Where a machine comes from -/

/-- Where the machine `j` in the state `v` comes from: it was there at the beginning, or another one started it, as its
child, from the state that one had come to; and since then it has taken its own steps. -/
inductive Descends (step : σ → ℓ → Option σ → Prop) (child : σ → ℓ → σ → Prop) (f : ι → Option σ) :
    ι → List (ι × ℓ) → σ → Prop
  | first {j : ι} {ls : List (ι × ℓ)} {u v : σ} : f j = some u → OwnRun step u (ownSteps j ls) v →
      Descends step child f j ls v
  | started {i j : ι} {l : ℓ} {ks rest : List (ι × ℓ)} {u w v : σ} : i ≠ j → Descends step child f i ks u →
      child u l w → OwnRun step w (ownSteps j rest) v → Descends step child f j (ks ++ (i, l) :: rest) v

/-- The machine takes one more step, or another one does. -/
theorem Descends.snoc {i : ι} {l : ℓ} (h : Descends step child f j ls v) {w : σ}
    (hrun : ∀ {u ks}, OwnRun step u ks v → OwnRun step u (ks ++ ownSteps j [(i, l)]) w) :
    Descends step child f j (ls ++ [(i, l)]) w := by
  cases h with
  | first hu hv =>
      apply Descends.first hu
      rw [ownSteps_append]
      exact hrun hv
  | started hne hparent hchild hv =>
      rw [List.append_assoc, List.cons_append]
      apply Descends.started hne hparent hchild
      rw [ownSteps_append]
      exact hrun hv

/-- The induction is on the run, for all machines at once: only the last step matters for a machine that it starts, and
its parent was there before; any other step is one of `j` or leaves `j` alone. -/
theorem FamilyRun.descends (h : FamilyRun step child f ls g) (hv : g j = some v) : Descends step child f j ls v := by
  induction h generalizing j v with
  | nil => exact .first hv (.nil v)
  | @snoc g g' ls l hrun hl ih =>
      obtain ⟨i, l⟩ := l
      cases hg : g j with
      | some u =>
          apply (ih hg).snoc
          intro w ks hks
          by_cases hj : j = i
          · subst hj
            have hstep := hl.own u hg
            rw [hv] at hstep
            rw [ownSteps_self]
            exact hks.snoc hstep
          · have hsame : g' j = some u := hl.others j u hj hg
            obtain rfl : u = v := Option.some.inj (hsame.symm.trans hv)
            rw [ownSteps_other hj, List.append_nil]
            exact hks
      | none =>
          have hj : j ≠ i := by
            rintro rfl
            exact absurd (hv.symm.trans (hl.none hg)) (by simp)
          obtain ⟨u, hu, hchild⟩ := hl.born j v hj hg hv
          exact .started hj.symm (ih hu) hchild (.nil v)

/-- A machine whose own steps all keep it in the state it is in is still in it. -/
theorem FamilyRun.still {P : ℓ → Prop} (h : FamilyRun step child f ls g) (hu : f j = some u)
    (hstill : ∀ l w, P l → step u l w → w = some u) (hP : ∀ l ∈ ownSteps j ls, P l) : g j = some u := by
  induction h with
  | nil => exact hu
  | @snoc g g' ls l hrun hl ih =>
      obtain ⟨i, l⟩ := l
      rw [ownSteps_append, List.forall_mem_append] at hP
      have hg := ih hP.1
      by_cases hj : j = i
      · subst hj
        rw [ownSteps_self] at hP
        exact hstill l _ (hP.2 l (List.mem_singleton_self l)) (hl.own u hg)
      · exact hl.others j u hj hg

/-- A machine that its own steps cannot end has taken them. -/
theorem FamilyRun.ownRun (h : FamilyRun step child f ls g) (hu : f j = some u)
    (hlives : ∀ l ∈ ownSteps j ls, ∀ v, ¬step v l none) : ∃ v, g j = some v ∧ OwnRun step u (ownSteps j ls) v := by
  induction h with
  | nil => exact ⟨u, hu, .nil u⟩
  | @snoc g g' ls l hrun hl ih =>
      obtain ⟨i, l⟩ := l
      rw [ownSteps_append, List.forall_mem_append] at hlives
      rw [ownSteps_append]
      obtain ⟨v, hg, hv⟩ := ih hlives.1
      by_cases hj : j = i
      · subst hj
        have hstep := hl.own v hg
        rw [ownSteps_self] at hlives ⊢
        cases hg' : g' j with
        | none =>
            rw [hg'] at hstep
            exact absurd hstep (hlives.2 l (List.mem_singleton_self l) v)
        | some w =>
            rw [hg'] at hstep
            exact ⟨w, rfl, hv.snoc hstep⟩
      · rw [ownSteps_other hj, List.append_nil]
        exact ⟨v, hl.others j v hj hg, hv⟩

end Lib
