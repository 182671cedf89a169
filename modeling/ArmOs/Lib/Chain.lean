import Mathlib.Data.List.Basic
import Mathlib.Data.List.Nodup

/-!
# Linked chains and queues

Nodes `ν` are reached through pointers `π`: `e x` points to the node `x`, `null` points nowhere, and
`next x` is the pointer stored in `x`. `Chain` says that a pointer leads through given nodes to `null`.
`IsQueue` adds a pointer to the last node.
-/

namespace Lib

variable {ν π : Type*}

/-- The chain that starts at `p` visits exactly the nodes `xs`, in order, and ends in `null`. -/
def Chain (e : ν → π) (null : π) (next : ν → π) : π → List ν → Prop
  | p, [] => p = null
  | p, x :: xs => p = e x ∧ Chain e null next (next x) xs

instance Chain.decidable [DecidableEq π] (e : ν → π) (null : π) (next : ν → π) :
    (p : π) → (xs : List ν) → Decidable (Chain e null next p xs)
  | p, [] => inferInstanceAs (Decidable (p = null))
  | p, x :: xs =>
      have := Chain.decidable e null next (next x) xs
      inferInstanceAs (Decidable (p = e x ∧ Chain e null next (next x) xs))

/-- A chain from `head` through `xs`, with `tail` pointing to its last node (`null` when empty). -/
def IsQueue (e : ν → π) (null : π) (next : ν → π) (head tail : π) (xs : List ν) : Prop :=
  Chain e null next head xs ∧ tail = (xs.getLast?.map e).getD null

namespace Chain

variable {e : ν → π} {null : π} {next next' : ν → π} {p : π} {x : ν} {xs ys : List ν}

/-- A chain only depends on the pointers stored in its own nodes. -/
theorem congr (h : Chain e null next p xs) (hn : ∀ y ∈ xs, next' y = next y) :
    Chain e null next' p xs := by
  induction xs generalizing p with
  | nil => exact h
  | cons y ys ih =>
      refine ⟨h.1, ?_⟩
      rw [hn y List.mem_cons_self]
      exact ih h.2 fun z hz => hn z (List.mem_cons_of_mem y hz)

theorem eq_nil_of_null (h : Chain e null next null xs) (he : ∀ y, e y ≠ null) : xs = [] := by
  cases xs with
  | nil => rfl
  | cons y ys => exact absurd h.1.symm (he y)

theorem nil_iff (h : Chain e null next p xs) (he : ∀ y, e y ≠ null) : p = null ↔ xs = [] := by
  constructor
  · rintro rfl
    exact h.eq_nil_of_null he
  · rintro rfl
    exact h

/-- The pointer and the heap determine the nodes. -/
theorem unique_of_mem (h : Chain e null next p xs) (h' : Chain e null next p ys) (hxs : ∀ x ∈ xs, e x ≠ null)
    (hys : ∀ y ∈ ys, e y ≠ null) (hinj : Function.Injective e) : xs = ys := by
  induction xs generalizing p ys with
  | nil =>
      cases ys with
      | nil => rfl
      | cons y ys => exact absurd (h'.1.symm.trans h) (hys y List.mem_cons_self)
  | cons x xs ih =>
      cases ys with
      | nil => exact absurd (h.1.symm.trans h') (hxs x List.mem_cons_self)
      | cons y ys =>
          have hxy : x = y := hinj (h.1.symm.trans h'.1)
          subst hxy
          rw [ih h.2 h'.2 (fun z hz => hxs z (List.mem_cons_of_mem _ hz)) fun z hz =>
            hys z (List.mem_cons_of_mem _ hz)]

theorem unique (h : Chain e null next p xs) (h' : Chain e null next p ys) (he : ∀ y, e y ≠ null)
    (hinj : Function.Injective e) : xs = ys :=
  h.unique_of_mem h' (fun x _ => he x) (fun y _ => he y) hinj

/-- No walk along the pointers is longer than a chain that ends. -/
theorem length_le {q : π} (h : Chain e null next p xs) (h' : Chain e q next p ys) (he : ∀ y, e y ≠ null)
    (hinj : Function.Injective e) : ys.length ≤ xs.length := by
  induction xs generalizing p ys with
  | nil =>
      cases ys with
      | nil => exact Nat.le_refl _
      | cons y ys => exact absurd (h'.1.symm.trans h) (he y)
  | cons x xs ih =>
      cases ys with
      | nil => exact Nat.zero_le _
      | cons y ys =>
          have hxy : x = y := hinj (h.1.symm.trans h'.1)
          subst hxy
          exact Nat.succ_le_succ (ih h.2 h'.2)

/-- The last pointer followed is the one that leaves the chain. -/
theorem append_iff : Chain e null next p (xs ++ x :: ys) ↔
    Chain e (e x) next p xs ∧ Chain e null next (next x) ys := by
  induction xs generalizing p with
  | nil => exact Iff.rfl
  | cons y zs ih => simp only [List.cons_append, Chain, ih, and_assoc]

/-- A chain that ends visits no node twice: from each visit on it would go the same way. -/
theorem nodup (h : Chain e null next p xs) (he : ∀ y, e y ≠ null) (hinj : Function.Injective e) :
    xs.Nodup := by
  induction xs generalizing p with
  | nil => exact List.nodup_nil
  | cons x xs ih =>
      refine List.nodup_cons.mpr ⟨?_, ih h.2⟩
      intro hx
      obtain ⟨as, bs, rfl⟩ := List.append_of_mem hx
      have hsuffix : Chain e null next (next x) bs := (append_iff.mp h.2).2
      have heq := h.2.unique hsuffix he hinj
      have := congrArg List.length heq
      simp at this
      omega

/-- Redirecting the last node of a chain changes where the chain ends. -/
theorem redirect {q r : π} {zs : List ν} {t : ν} (h : Chain e q next p (zs ++ [t]))
    (hz : ∀ z ∈ zs, next' z = next z) (ht : next' t = r) : Chain e r next' p (zs ++ [t]) := by
  rw [append_iff] at h ⊢
  exact ⟨h.1.congr hz, ht⟩

end Chain

namespace IsQueue

variable {e : ν → π} {null : π} {next n : ν → π} {head tail : π} {x t : ν} {xs ys : List ν}

theorem congr (h : IsQueue e null next head tail xs) (hn : ∀ y ∈ xs, n y = next y) :
    IsQueue e null n head tail xs := ⟨h.1.congr hn, h.2⟩

theorem empty : IsQueue e null next null null [] := ⟨rfl, rfl⟩

theorem head_null_iff (h : IsQueue e null next head tail xs) (he : ∀ y, e y ≠ null) :
    head = null ↔ xs = [] := h.1.nil_iff he

theorem singleton (hx : next x = null) : IsQueue e null next (e x) (e x) [x] := ⟨⟨rfl, hx⟩, rfl⟩

theorem tail_eq (h : IsQueue e null next head tail (xs ++ [t])) : tail = e t := by
  simpa using h.2

/-- Appending: the old last node now points to `x`, and `x` to nothing. -/
theorem push (h : IsQueue e null next head tail (xs ++ [t])) (hx : n x = null)
    (ht : n t = e x) (hs : ∀ y ∈ xs, n y = next y) :
    IsQueue e null n head (e x) (xs ++ [t] ++ [x]) := by
  refine ⟨?_, by simp⟩
  rw [Chain.append_iff]
  exact ⟨Chain.redirect h.1 hs ht, hx⟩

/-- Taking the first node of a queue with more nodes. -/
theorem pop (h : IsQueue e null next head tail (x :: xs)) (hne : xs ≠ []) :
    IsQueue e null next (next x) tail xs := by
  refine ⟨h.1.2, ?_⟩
  cases xs with
  | nil => exact absurd rfl hne
  | cons y ys => simpa [List.getLast?_cons_cons] using h.2

/-- Unlinking `x` from behind its predecessor `t`, with nodes after it: the tail stays. -/
theorem unlink (h : IsQueue e null next head tail (xs ++ [t] ++ x :: ys)) (hne : ys ≠ [])
    (ht : n t = next x) (hs : ∀ y ∈ xs, n y = next y) (hy : ∀ y ∈ ys, n y = next y) :
    IsQueue e null n head tail (xs ++ [t] ++ ys) := by
  obtain ⟨hc, htail⟩ := h
  rw [Chain.append_iff] at hc
  obtain ⟨y, zs, rfl⟩ := List.exists_cons_of_ne_nil hne
  have hrest : Chain e null n (next x) (y :: zs) := hc.2.congr hy
  refine ⟨?_, by simpa using htail⟩
  rw [Chain.append_iff]
  refine ⟨Chain.redirect hc.1 hs ?_, hrest.2⟩
  rw [ht, hrest.1]

/-- Unlinking the last node `x`: its predecessor `t` becomes the tail. -/
theorem unlinkLast (h : IsQueue e null next head tail (xs ++ [t] ++ [x]))
    (ht : n t = null) (hs : ∀ y ∈ xs, n y = next y) :
    IsQueue e null n head (e t) (xs ++ [t]) := by
  have hc := h.1
  rw [Chain.append_iff] at hc
  exact ⟨Chain.redirect hc.1 hs ht, by simp⟩

theorem nodup (h : IsQueue e null next head tail xs) (he : ∀ y, e y ≠ null)
    (hinj : Function.Injective e) : xs.Nodup := h.1.nodup he hinj

theorem unique {tail' : π} (h : IsQueue e null next head tail xs)
    (h' : IsQueue e null next head tail' ys) (he : ∀ y, e y ≠ null) (hinj : Function.Injective e) :
    xs = ys := h.1.unique h'.1 he hinj

end IsQueue

end Lib
