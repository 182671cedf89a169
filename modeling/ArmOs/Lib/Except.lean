import Mathlib.Logic.Basic

/-!
# Computations that may stop

Inversion of `Except` computations: what a successful `bind`, `pure` or test says about its parts.
-/

namespace Lib

variable {ε α β : Type}

/-- Continue if `c` holds, stop with `err` otherwise. -/
def require (err : ε) (c : Prop) [Decidable c] : Except ε Unit := if c then .ok () else .error err

theorem bind_eq_ok {x : Except ε α} {f : α → Except ε β} {b : β} :
    (x >>= f) = .ok b ↔ ∃ a, x = .ok a ∧ f a = .ok b := by
  cases x with
  | error e => simp [bind, Except.bind]
  | ok a => simp [bind, Except.bind]

theorem bind_eq_error {x : Except ε α} {f : α → Except ε β} {e : ε} :
    (x >>= f) = .error e ↔ x = .error e ∨ ∃ a, x = .ok a ∧ f a = .error e := by
  cases x with
  | error e' => simp [bind, Except.bind]
  | ok a => simp [bind, Except.bind]

@[simp] theorem ok_bind (a : α) (f : α → Except ε β) : (Except.ok a >>= f) = f a := rfl

@[simp] theorem error_bind (e : ε) (f : α → Except ε β) : (Except.error e >>= f) = .error e := rfl

/-- A computation returns if its parts do. -/
theorem bind_returns {x : Except ε α} {f : α → Except ε β} {a : α} (hx : x = .ok a) (hf : ∃ b, f a = .ok b) :
    ∃ b, (x >>= f) = .ok b := by
  rw [hx]
  exact hf

theorem returns_bind {x : Except ε α} {f : α → Except ε β} (hx : ∃ a, x = .ok a)
    (hf : ∀ a, x = .ok a → ∃ b, f a = .ok b) : ∃ b, (x >>= f) = .ok b := by
  obtain ⟨a, ha⟩ := hx
  exact bind_returns ha (hf a ha)

@[simp] theorem pure_eq_ok {a b : α} : (pure a : Except ε α) = .ok b ↔ a = b := by
  simp [pure, Except.pure]

@[simp] theorem pure_ne_error {a : α} {e : ε} : (pure a : Except ε α) ≠ .error e := by
  simp [pure, Except.pure]

@[simp] theorem require_eq_ok {err : ε} {c : Prop} [Decidable c] {u : Unit} :
    require err c = .ok u ↔ c := by
  by_cases h : c <;> simp [require, h]

theorem require_of {err : ε} {c : Prop} [Decidable c] (h : c) : require err c = .ok () := by
  simp [require, h]

@[simp] theorem require_eq_error {err e : ε} {c : Prop} [Decidable c] :
    require err c = .error e ↔ ¬c ∧ err = e := by
  by_cases h : c <;> simp [require, h]

/-- A loop of which no round changes anything. -/
theorem foldlM_stays {f : β → α → Except ε β} {b : β} {xs : List α} (h : ∀ a ∈ xs, f b a = .ok b) :
    xs.foldlM f b = .ok b := by
  induction xs with
  | nil => rfl
  | cons x xs ih =>
      rw [List.foldlM_cons, h x List.mem_cons_self, ok_bind]
      exact ih fun a ha => h a (List.mem_cons_of_mem x ha)

/-- What every round of a loop keeps, the loop keeps. -/
theorem foldlM_keeps {f : β → α → Except ε β} {P : β → Prop} {b b' : β} {xs : List α}
    (hP : ∀ {b a b'}, P b → f b a = .ok b' → P b') (h : xs.foldlM f b = .ok b') (hb : P b) : P b' := by
  induction xs generalizing b with
  | nil =>
      cases h
      exact hb
  | cons x xs ih =>
      rw [List.foldlM_cons] at h
      obtain ⟨b₁, hb₁, h⟩ := bind_eq_ok.mp h
      exact ih h (hP hb hb₁)

/-- Why the computation stops, if it does. -/
def stopped : Except ε α → Option ε
  | .error e => some e
  | .ok _ => none

theorem stopped_eq_some {x : Except ε α} {e : ε} : stopped x = some e ↔ x = .error e := by
  cases x with
  | error e' => simp [stopped]
  | ok a => simp [stopped]

@[simp] theorem toOption_eq_some {x : Except ε α} {a : α} : x.toOption = some a ↔ x = .ok a := by
  cases x with
  | error e => simp [Except.toOption]
  | ok b => simp [Except.toOption]

/-- The computation does not stop with `e`. -/
def Avoids (e : ε) (x : Except ε α) : Prop := x ≠ .error e

namespace Avoids

variable {e : ε} {x : Except ε α}

theorem ok {a : α} : Avoids e (.ok a) := nofun

theorem pure {a : α} : Avoids e (Pure.pure a) := nofun

theorem of_ok {a : α} (h : x = .ok a) : Avoids e x := h ▸ .ok

theorem error {e' : ε} (h : e' ≠ e) : Avoids (α := α) e (.error e') := fun he => h (Except.error.inj he)

theorem require {err : ε} {c : Prop} [Decidable c] (h : err ≠ e) : Avoids e (Lib.require err c) := fun he =>
  h (require_eq_error.mp he).2

theorem bind {f : α → Except ε β} (hx : Avoids e x) (hf : ∀ a, x = .ok a → Avoids e (f a)) :
    Avoids e (x >>= f) := by
  intro he
  rcases bind_eq_error.mp he with h | ⟨a, ha, h⟩
  · exact hx h
  · exact hf a ha h

theorem ite {c : Prop} [Decidable c] {y : Except ε α} (hx : c → Avoids e x) (hy : ¬c → Avoids e y) :
    Avoids e (if c then x else y) := by
  split
  · exact hx ‹_›
  · exact hy ‹_›

theorem foldlM {f : β → α → Except ε β} {xs : List α} (hf : ∀ b, ∀ a ∈ xs, Avoids e (f b a)) (b : β) :
    Avoids e (xs.foldlM f b) := by
  induction xs generalizing b with
  | nil => exact .pure
  | cons x xs ih =>
      rw [List.foldlM_cons]
      exact .bind (hf b x List.mem_cons_self) fun b' _ => ih (fun b a ha => hf b a (List.mem_cons_of_mem x ha)) b'

end Avoids

end Lib
