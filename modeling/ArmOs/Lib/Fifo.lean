import Mathlib.Data.List.Infix

/-!
# Traces of a first-in first-out queue

A trace of a queue records what was put in, what was taken out and when it was found empty. `replay` runs
the trace on a list; a trace it accepts takes everything out in the order in which it was put in.
-/

namespace Lib

variable {α : Type*} [DecidableEq α]

inductive QueueOp (α : Type*)
  | enq (a : α)
  | deq (a : α)
  | empty

namespace QueueOp

/-- One operation on the queue contents, if it is possible. -/
def step (q : List α) : QueueOp α → Option (List α)
  | enq a => some (q ++ [a])
  | deq a => if q.head? = some a then some q.tail else none
  | empty => if q = [] then some [] else none

/-- The contents after a trace that starts with the empty queue. -/
def replay (tr : List (QueueOp α)) : Option (List α) := tr.foldlM step []

/-- What was put in. -/
def enqs (tr : List (QueueOp α)) : List α := tr.filterMap fun | enq a => some a | _ => none

/-- What was taken out. -/
def deqs (tr : List (QueueOp α)) : List α := tr.filterMap fun | deq a => some a | _ => none

theorem replay_append (tr tr' : List (QueueOp α)) :
    replay (tr ++ tr') = (replay tr).bind fun q => tr'.foldlM step q := by
  simp only [replay, List.foldlM_append]
  rfl

theorem replay_snoc {tr : List (QueueOp α)} {q : List α} (h : replay tr = some q) (o : QueueOp α) :
    replay (tr ++ [o]) = step q o := by
  rw [replay_append, h]
  simp

theorem replay_prefix {tr tr' : List (QueueOp α)} {q : List α} (h : replay (tr ++ tr') = some q) :
    ∃ q', replay tr = some q' := by
  rw [replay_append] at h
  obtain ⟨q', hq, _⟩ := Option.bind_eq_some_iff.mp h
  exact ⟨q', hq⟩

theorem replay_enqs {tr : List (QueueOp α)} {q : List α} (h : replay tr = some q) (xs : List α) :
    replay (tr ++ xs.map enq) = some (q ++ xs) := by
  induction xs generalizing tr q with
  | nil => simpa using h
  | cons x xs ih =>
      have hx : replay (tr ++ [enq x]) = some (q ++ [x]) := replay_snoc h _
      simpa using ih hx

/-- What was put in is what was taken out, in the same order, and then what is still there. -/
theorem enqs_eq {tr : List (QueueOp α)} {q : List α} (h : replay tr = some q) :
    enqs tr = deqs tr ++ q := by
  induction tr using List.reverseRecOn generalizing q with
  | nil => simp only [replay, List.foldlM_nil] at h; cases h; rfl
  | append_singleton tr o ih =>
      obtain ⟨q', hq'⟩ := replay_prefix h
      rw [replay_snoc hq'] at h
      have ih := ih hq'
      cases o with
      | enq a =>
          cases h
          simp only [enqs, deqs, List.filterMap_append] at ih ⊢
          simp [ih]
      | deq a =>
          simp only [step] at h
          split at h
          · rename_i hhead
            cases h
            obtain ⟨qs, rfl⟩ := List.head?_eq_some_iff.mp hhead
            simp only [enqs, deqs, List.filterMap_append] at ih ⊢
            simp [ih]
          · cases h
      | empty =>
          simp only [step] at h
          split at h
          · rename_i hnil
            cases h
            simp only [enqs, deqs, List.filterMap_append] at ih ⊢
            simp [ih, hnil]
          · cases h

/-- When the queue was found empty, everything put in had been taken out. -/
theorem enqs_eq_of_empty {tr tr' : List (QueueOp α)} {q : List α}
    (h : replay (tr ++ empty :: tr') = some q) : enqs tr = deqs tr := by
  obtain ⟨q', hq'⟩ := replay_prefix h
  have h₁ : replay (tr ++ [empty] ++ tr') = some q := by simpa using h
  obtain ⟨q'', hq''⟩ := replay_prefix h₁
  rw [replay_snoc hq'] at hq''
  simp only [step] at hq''
  split at hq''
  · rename_i hnil
    simpa [hnil] using enqs_eq hq'
  · cases hq''

end QueueOp

end Lib
