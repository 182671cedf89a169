import Mathlib.Data.List.Basic
import Mathlib.Data.List.Nodup
import Mathlib.Data.Set.Basic
import Mathlib.Logic.Function.Basic

/-!
# Owners and a free list

A set of places, each of which is either on a free list, once, or held by exactly one owner. Taking a place from
the list and giving one back keep that.
-/

namespace Lib

variable {ν κ : Type*}

/-- Every place of `all` is free, once, or held by one owner; there are no other places. -/
structure Owned (free : List ν) (own : κ → Option ν) (all : Set ν) : Prop where
  nodup : free.Nodup
  inj : ∀ ⦃k k' v⦄, own k = some v → own k' = some v → k = k'
  held : ∀ ⦃k v⦄, own k = some v → v ∉ free
  mem : ∀ v, v ∈ all ↔ v ∈ free ∨ ∃ k, own k = some v

/-- What holds a place: a position of the free list, or an owner. -/
def holder (free : List ν) (own : κ → Option ν) : ℕ ⊕ κ → Option ν
  | .inl i => free[i]?
  | .inr k => own k

namespace Owned

variable {free : List ν} {own own' : κ → Option ν} {all : Set ν} {k k' : κ} {v v' : ν}

theorem free_mem (h : Owned free own all) (hv : v ∈ free) : v ∈ all := (h.mem v).mpr (.inl hv)

theorem own_mem (h : Owned free own all) (hk : own k = some v) : v ∈ all := (h.mem v).mpr (.inr ⟨k, hk⟩)

/-- Different owners hold different places. -/
theorem ne (h : Owned free own all) (hk : own k = some v) (hk' : own k' = some v') (hne : k ≠ k') : v ≠ v' := by
  rintro rfl
  exact hne (h.inj hk hk')

theorem congr (h : Owned free own all) (he : ∀ k, own' k = own k) : Owned free own' all := by
  obtain rfl : own' = own := funext he
  exact h

/-- All places are free. -/
theorem ofFree (hnodup : free.Nodup) (hmem : ∀ v, v ∈ all ↔ v ∈ free) (hnone : ∀ k, own k = none) :
    Owned free own all := by
  refine ⟨hnodup, fun k k' v hk => ?_, fun k v hk => ?_, fun v => ?_⟩
  · rw [hnone] at hk
    cases hk
  · rw [hnone] at hk
    cases hk
  · simp [hmem, hnone]

/-- Every place has exactly one holder. -/
theorem existsUnique (h : Owned free own all) (hv : v ∈ all) : ∃! o, holder free own o = some v := by
  rcases (h.mem v).mp hv with hfree | ⟨k, hk⟩
  · obtain ⟨i, hi⟩ := List.mem_iff_getElem?.mp hfree
    refine ⟨.inl i, hi, fun o ho => ?_⟩
    cases o with
    | inl j =>
        obtain ⟨hlt, -⟩ := List.getElem?_eq_some_iff.mp ho
        exact congrArg Sum.inl ((List.getElem?_inj hlt h.nodup).mp (ho.trans hi.symm))
    | inr k => exact absurd hfree (h.held ho)
  · refine ⟨.inr k, hk, fun o ho => ?_⟩
    cases o with
    | inl j => exact absurd (List.mem_of_getElem? ho) (h.held hk)
    | inr k' => exact congrArg Sum.inr (h.inj ho hk)

/-- The free places and the held ones are all, each of them once. -/
theorem perm {places : List ν} {owners : List κ} (h : Owned free own all) (hall : ∀ v, v ∈ all ↔ v ∈ places)
    (hplaces : places.Nodup) (howners : ∀ k, k ∈ owners) (hnodup : owners.Nodup) :
    (free ++ owners.filterMap own).Perm places := by
  have hheld : (owners.filterMap own).Nodup := hnodup.filterMap fun k k' v hk hk' => h.inj hk hk'
  have hdisjoint : List.Disjoint free (owners.filterMap own) := by
    intro v hv hv'
    obtain ⟨k, -, hk⟩ := List.mem_filterMap.mp hv'
    exact h.held hk hv
  apply (List.perm_ext_iff_of_nodup (h.nodup.append hheld hdisjoint) hplaces).mpr
  intro v
  rw [← hall, h.mem, List.mem_append, List.mem_filterMap]
  apply or_congr_right
  constructor
  · rintro ⟨k, -, hk⟩
    exact ⟨k, hk⟩
  · rintro ⟨k, hk⟩
    exact ⟨k, howners k, hk⟩

section

variable [DecidableEq κ]

/-- The owner `k`, which held nothing, takes the first free place. -/
theorem take (h : Owned (v :: free) own all) (hk : own k = none) :
    Owned free (Function.update own k (some v)) all := by
  obtain ⟨hv, hnodup⟩ := List.nodup_cons.mp h.nodup
  have hne : ∀ k', own k' ≠ some v := fun k' hk' => h.held hk' List.mem_cons_self
  refine ⟨hnodup, fun a b w ha hb => ?_, fun a w ha => ?_, fun w => ?_⟩
  · by_cases hak : a = k <;> by_cases hbk : b = k
    · rw [hak, hbk]
    · subst hak
      rw [Function.update_self] at ha
      rw [Function.update_of_ne hbk] at hb
      exact absurd (hb.trans ha.symm) (hne b)
    · subst hbk
      rw [Function.update_self] at hb
      rw [Function.update_of_ne hak] at ha
      exact absurd (ha.trans hb.symm) (hne a)
    · rw [Function.update_of_ne hak] at ha
      rw [Function.update_of_ne hbk] at hb
      exact h.inj ha hb
  · by_cases hak : a = k
    · subst hak
      rw [Function.update_self] at ha
      cases ha
      exact hv
    · rw [Function.update_of_ne hak] at ha
      exact fun hw => h.held ha (List.mem_cons_of_mem v hw)
  · rw [h.mem, List.mem_cons]
    constructor
    · rintro ((rfl | hw) | ⟨a, ha⟩)
      · exact .inr ⟨k, Function.update_self _ _ _⟩
      · exact .inl hw
      · have hak : a ≠ k := by
          rintro rfl
          rw [hk] at ha
          cases ha
        exact .inr ⟨a, by rw [Function.update_of_ne hak, ha]⟩
    · rintro (hw | ⟨a, ha⟩)
      · exact .inl (.inr hw)
      · by_cases hak : a = k
        · subst hak
          rw [Function.update_self] at ha
          cases ha
          exact .inl (.inl rfl)
        · rw [Function.update_of_ne hak] at ha
          exact .inr ⟨a, ha⟩

/-- The owner `k` gives back what it held. -/
theorem give (h : Owned free own all) (hk : own k = some v) :
    Owned (v :: free) (Function.update own k none) all := by
  have hother : ∀ {a w}, Function.update own k none a = some w → a ≠ k ∧ own a = some w := by
    intro a w ha
    by_cases hak : a = k
    · subst hak
      rw [Function.update_self] at ha
      cases ha
    · rw [Function.update_of_ne hak] at ha
      exact ⟨hak, ha⟩
  refine ⟨List.nodup_cons.mpr ⟨h.held hk, h.nodup⟩, fun a b w ha hb => ?_, fun a w ha => ?_, fun w => ?_⟩
  · exact h.inj (hother ha).2 (hother hb).2
  · obtain ⟨hak, ha⟩ := hother ha
    rw [List.mem_cons, not_or]
    exact ⟨h.ne ha hk hak, h.held ha⟩
  · rw [h.mem, List.mem_cons]
    constructor
    · rintro (hw | ⟨a, ha⟩)
      · exact .inl (.inr hw)
      · by_cases hak : a = k
        · subst hak
          exact .inl (.inl (Option.some.inj (ha.symm.trans hk)))
        · exact .inr ⟨a, by rw [Function.update_of_ne hak, ha]⟩
    · rintro ((rfl | hw) | ⟨a, ha⟩)
      · exact .inr ⟨k, hk⟩
      · exact .inl hw
      · exact .inr ⟨a, (hother ha).2⟩

end

end Owned

end Lib
