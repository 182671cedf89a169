import ArmOs.Lib.Except

/-!
# Arrays with checked bounds

An access outside the array stops with the error `e`.
-/

namespace Lib

variable {ε α β : Type} {e : ε} {buf : List α} {p : Nat} {x : α} {xs ys : List α}

def load (e : ε) (buf : List α) (p : Nat) : Except ε α :=
  match buf[p]? with
  | some x => .ok x
  | none => .error e

def store (e : ε) (buf : List α) (p : Nat) (x : α) : Except ε (List α) :=
  if p < buf.length then .ok (buf.set p x) else .error e

theorem load_of_get (h : buf[p]? = some x) : load e buf p = .ok x := by
  rw [load, h]

theorem store_of_lt (h : p < buf.length) : store e buf p x = .ok (buf.set p x) := if_pos h

theorem store_of_le (h : buf.length ≤ p) : store e buf p x = .error e := if_neg (Nat.not_lt.mpr h)

/-- Store the elements of `xs` one after the other, from `p` on. -/
def storeAll (e : ε) (buf : List α) (p : Nat) : List α → Except ε (List α)
  | [] => .ok buf
  | x :: xs => store e buf p x >>= fun buf => storeAll e buf (p + 1) xs

@[simp] theorem storeAll_nil (e : ε) (buf : List α) (p : Nat) : storeAll e buf p [] = .ok buf := rfl

theorem storeAll_cons (e : ε) (buf : List α) (p : Nat) (x : α) (xs : List α) :
    storeAll e buf p (x :: xs) = store e buf p x >>= fun buf => storeAll e buf (p + 1) xs := rfl

theorem storeAll_append (e : ε) (buf : List α) (p : Nat) (xs ys : List α) :
    storeAll e buf p (xs ++ ys) = storeAll e buf p xs >>= fun buf => storeAll e buf (p + xs.length) ys := by
  induction xs generalizing buf p with
  | nil => rfl
  | cons x xs ih =>
      have hp : p + (x :: xs).length = p + 1 + xs.length := by
        rw [List.length_cons]
        omega
      rw [List.cons_append, storeAll_cons, storeAll_cons, bind_assoc, hp]
      simp only [ih]

/-- The array with the elements from `p` on replaced. -/
def overwrite (buf : List α) (p : Nat) (xs : List α) : List α := buf.take p ++ xs ++ buf.drop (p + xs.length)

@[simp] theorem overwrite_length (h : p + xs.length ≤ buf.length) : (overwrite buf p xs).length = buf.length := by
  simp only [overwrite, List.length_append, List.length_take, List.length_drop]
  omega

theorem overwrite_set (h : p < buf.length) : overwrite (buf.set p x) (p + 1) xs = overwrite buf p (x :: xs) := by
  have hdrop : p + 1 + xs.length = p + (x :: xs).length := by
    rw [List.length_cons]
    omega
  have hset : (buf.set p x).take (p + 1) = buf.take p ++ [x] := by
    rw [List.take_add_one, List.take_set_of_le (Nat.le_refl p), List.getElem?_set_self h]
    rfl
  rw [overwrite, overwrite, hset, List.drop_set_of_lt (by omega), hdrop]
  simp

/-- What fits is stored, and nothing else changes. -/
theorem storeAll_of_le (h : p + xs.length ≤ buf.length) : storeAll e buf p xs = .ok (overwrite buf p xs) := by
  induction xs generalizing buf p with
  | nil => simp [overwrite]
  | cons x xs ih =>
      rw [List.length_cons] at h
      have hp : p < buf.length := by omega
      have hrest : p + 1 + xs.length ≤ (buf.set p x).length := by
        rw [List.length_set]
        omega
      rw [storeAll_cons, store_of_lt hp, ok_bind, ih hrest, overwrite_set hp]

/-- What does not fit is stored up to the end of the array, and then comes a store outside it. -/
theorem storeAll_of_lt (hp : p ≤ buf.length) (h : buf.length < p + xs.length) : storeAll e buf p xs = .error e := by
  induction xs generalizing buf p with
  | nil =>
      rw [List.length_nil] at h
      omega
  | cons x xs ih =>
      rw [List.length_cons] at h
      rw [storeAll_cons]
      rcases Nat.lt_or_ge p buf.length with hlt | hge
      · have hlen : (buf.set p x).length = buf.length := List.length_set
        rw [store_of_lt hlt, ok_bind]
        apply ih
        · omega
        · omega
      · rw [store_of_le hge]
        rfl

theorem overwrite_take (xs : List α) (h : p ≤ buf.length) : (overwrite buf p xs).take (p + xs.length) = buf.take p ++ xs := by
  have hlen : (buf.take p ++ xs).length = p + xs.length := by simp [h]
  rw [overwrite, ← hlen, List.take_left]

end Lib
