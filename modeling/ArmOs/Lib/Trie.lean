import Mathlib.Data.List.Induction

/-!
# Tries in a heap

`next a k` is the child of the node `a` for the key `k`. What is found along a path of keys, and what hanging a new
leaf into the trie does to it.
-/

namespace Lib.Trie

variable {ν κ : Type*} {next next' : ν → κ → Option ν} {S : ν → Prop} {root a p v : ν} {k : κ} {s ks : List κ} {d : Nat}

/-- The node at the end of a path. -/
def find (next : ν → κ → Option ν) (a : ν) : List κ → Option ν
  | [] => some a
  | k :: ks => (next a k).bind fun b => find next b ks

@[simp] theorem find_nil : find next a [] = some a := rfl

theorem find_append (ks js : List κ) : find next a (ks ++ js) = (find next a ks).bind fun b => find next b js := by
  induction ks generalizing a with
  | nil => rfl
  | cons k ks ih =>
      simp only [List.cons_append, find]
      cases next a k with
      | none => rfl
      | some b => exact ih

theorem find_concat (ks : List κ) (k : κ) : find next a (ks ++ [k]) = (find next a ks).bind fun b => next b k := by
  rw [find_append]
  cases find next a ks with
  | none => rfl
  | some b =>
      simp only [Option.bind_some, find]
      cases next b k <;> rfl

/-- The node `a` is at the end of a path of at most `d` keys. -/
def Within (next : ν → κ → Option ν) (root : ν) (d : Nat) (a : ν) : Prop :=
  ∃ ks : List κ, ks.length ≤ d ∧ find next root ks = some a

/-- No node is at the end of two such paths. -/
def IsTree (next : ν → κ → Option ν) (root : ν) (d : Nat) : Prop :=
  ∀ ks js : List κ, ks.length ≤ d → js.length ≤ d → ∀ a, find next root ks = some a → find next root js = some a → ks = js

/-- The paths of at most `d` keys only depend on the nodes before their ends. -/
theorem find_congr (h : ∀ a, Within next root d a → ∀ k, next' a k = next a k) (hks : ks.length ≤ d + 1) :
    find next' root ks = find next root ks := by
  induction ks using List.reverseRecOn with
  | nil => rfl
  | append_singleton ks k ih =>
      rw [List.length_append, List.length_singleton] at hks
      rw [find_concat, find_concat, ih (by omega)]
      cases ha : find next root ks with
      | none => rfl
      | some a => exact h a ⟨ks, by omega, ha⟩ k

/-- `next'` is `next` with the leaf `v` under the key `k` of `p`, as far as the nodes in `S` are concerned. -/
structure Hangs (S : ν → Prop) (next next' : ν → κ → Option ν) (p : ν) (k : κ) (v : ν) : Prop where
  new : next' p k = some v
  rest : ∀ a j, S a → a ≠ v → (a = p → j ≠ k) → next' a j = next a j
  leaf : ∀ j, next' v j = none

namespace Hangs

variable (h : Hangs S next next' p k v) (hS : ∀ a, Within next root d a → S a) (htree : IsTree next root d)
  (hfresh : ¬Within next root d v) (hp : find next root s = some p) (hfree : next p k = none) (hs : s.length < d)

include h hS htree hfresh hp hfree hs

/-- The new leaf is found along the new path, and nothing else has changed. -/
theorem find_eq [DecidableEq κ] (hks : ks.length ≤ d) :
    find next' root ks = if ks = s ++ [k] then some v else find next root ks := by
  induction ks using List.reverseRecOn with
  | nil => simp
  | append_singleton ks j ih =>
      rw [List.length_append, List.length_singleton] at hks
      rw [find_concat, find_concat, ih (by omega)]
      by_cases hpath : ks = s ++ [k]
      · -- below the new leaf
        have hne : ks ++ [j] ≠ s ++ [k] := by
          intro heq
          have hlen := congrArg List.length heq
          rw [hpath] at hlen
          simp at hlen
        rw [if_pos hpath, if_neg hne, hpath, find_concat, hp]
        simp only [Option.bind_some, hfree, Option.bind_none]
        exact h.leaf j
      · rw [if_neg hpath]
        cases ha : find next root ks with
        | none =>
            have hne : ks ++ [j] ≠ s ++ [k] := by
              intro heq
              rw [(List.append_inj' heq rfl).1, hp] at ha
              cases ha
            rw [if_neg hne]
            rfl
        | some a =>
            have hwithin : Within next root d a := ⟨ks, by omega, ha⟩
            have hav : a ≠ v := by
              rintro rfl
              exact hfresh hwithin
            simp only [Option.bind_some]
            by_cases heq : ks ++ [j] = s ++ [k]
            · obtain ⟨rfl, hj⟩ := List.append_inj' heq rfl
              obtain rfl : j = k := by simpa using hj
              rw [hp] at ha
              cases ha
              rw [if_pos rfl]
              exact h.new
            · rw [if_neg heq]
              refine h.rest a j (hS a hwithin) hav ?_
              rintro rfl rfl
              exact heq (by rw [htree ks s (by omega) (by omega) a ha hp])

theorem isTree [DecidableEq κ] : IsTree next' root d := by
  intro ks js hks hjs a ha ha'
  rw [h.find_eq hS htree hfresh hp hfree hs hks] at ha
  rw [h.find_eq hS htree hfresh hp hfree hs hjs] at ha'
  split at ha
  · rename_i hpath
    cases ha
    split at ha'
    · rename_i hpath'
      exact hpath.trans hpath'.symm
    · exact absurd ⟨js, hjs, ha'⟩ hfresh
  · split at ha'
    · cases ha'
      exact absurd ⟨ks, hks, ha⟩ hfresh
    · exact htree ks js hks hjs a ha ha'

theorem within [DecidableEq κ] (ha : Within next' root d a) : a = v ∨ Within next root d a := by
  obtain ⟨ks, hks, ha⟩ := ha
  rw [h.find_eq hS htree hfresh hp hfree hs hks] at ha
  split at ha
  · exact .inl (Option.some.inj ha).symm
  · exact .inr ⟨ks, hks, ha⟩

end Hangs

end Lib.Trie
