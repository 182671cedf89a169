import Mathlib.Data.List.Basic
import Mathlib.Tactic.Ring

/-!
# Byte-addressed memory

A memory gives a byte at every address. Words are little-endian. Fills and copies are closed forms of
the byte loops; `fill_succ` is the loop equation of a fill.
-/

namespace Lib

/-- A byte at every address. -/
abbrev Mem := Nat → UInt8

namespace Mem

/-- The `n`-byte little-endian number at `a`. -/
def read (m : Mem) : (n a : Nat) → Nat
  | 0, _ => 0
  | n + 1, a => (m a).toNat + 256 * m.read n (a + 1)

/-- Store the low `n` bytes of `v` at `a`, little-endian. -/
def write (m : Mem) (n a v : Nat) : Mem :=
  fun x => if a ≤ x ∧ x < a + n then UInt8.ofNat (v / 256 ^ (x - a)) else m x

/-- Set `n` bytes from `a` on to `b`. -/
def fill (m : Mem) (a n : Nat) (b : UInt8) : Mem :=
  fun x => if a ≤ x ∧ x < a + n then b else m x

/-- Copy the `n` bytes at `src` to `dst`. -/
def copy (m : Mem) (dst src n : Nat) : Mem :=
  fun x => if dst ≤ x ∧ x < dst + n then m (src + (x - dst)) else m x

/-- Store the bytes `bs` from `a` on. -/
def put (m : Mem) (a : Nat) (bs : List UInt8) : Mem :=
  fun x => if a ≤ x then bs[x - a]?.getD (m x) else m x

/-- The `n` bytes from `a` on. -/
def bytes (m : Mem) (a n : Nat) : List UInt8 := (List.range n).map fun i => m (a + i)

/-- `m'` holds the same bytes as `m` from `a` on, `n` of them. -/
def Same (m m' : Mem) (a n : Nat) : Prop := ∀ x, a ≤ x → x < a + n → m' x = m x

variable {m m' m'' : Mem} {a b n k v : Nat}

/-! ## Frames -/

theorem Same.refl (m : Mem) (a n : Nat) : Same m m a n := fun _ _ _ => rfl

theorem Same.trans (h : Same m m' a n) (h' : Same m' m'' a n) : Same m m'' a n :=
  fun x hx hx' => (h' x hx hx').trans (h x hx hx')

theorem Same.sub (h : Same m m' a n) (hb : a ≤ b) (hk : b + k ≤ a + n) : Same m m' b k :=
  fun x hx hx' => h x (by omega) (by omega)

theorem write_same (h : b + k ≤ a ∨ a + n ≤ b) : Same m (m.write n a v) b k := by
  intro x hx hx'
  have hout : ¬(a ≤ x ∧ x < a + n) := by omega
  simp [write, hout]

theorem fill_same {c : UInt8} (h : b + k ≤ a ∨ a + n ≤ b) : Same m (m.fill a n c) b k := by
  intro x hx hx'
  have hout : ¬(a ≤ x ∧ x < a + n) := by omega
  simp [fill, hout]

theorem copy_same {src : Nat} (h : b + k ≤ a ∨ a + n ≤ b) : Same m (m.copy a src n) b k := by
  intro x hx hx'
  have hout : ¬(a ≤ x ∧ x < a + n) := by omega
  simp [copy, hout]

/-! ## Reading -/

theorem read_congr (h : Same m m' a n) : m'.read n a = m.read n a := by
  induction n generalizing a with
  | zero => rfl
  | succ n ih =>
      simp only [read]
      rw [h a (Nat.le_refl a) (by omega), ih (h.sub (by omega) (by omega))]

theorem read_lt (m : Mem) (n a : Nat) : m.read n a < 256 ^ n := by
  induction n generalizing a with
  | zero => simp [read]
  | succ n ih =>
      have h₁ : (m a).toNat < 256 := (m a).toNat_lt
      have h₂ := ih (a + 1)
      simp only [read, Nat.pow_succ]
      omega

/-- The digits of `v` in base 256 read back as `v`. -/
theorem read_of_digits (h : ∀ i, i < n → (m (a + i)).toNat = v / 256 ^ i % 256) :
    m.read n a = v % 256 ^ n := by
  induction n generalizing a v with
  | zero => simp [read, Nat.mod_one]
  | succ n ih =>
      have h₀ : (m a).toNat = v % 256 := by simpa using h 0 (by omega)
      have htail : m.read n (a + 1) = v / 256 % 256 ^ n := by
        apply ih
        intro i hi
        have := h (i + 1) (by omega)
        rw [show a + 1 + i = a + (i + 1) by omega, this, Nat.pow_succ', Nat.div_div_eq_div_mul]
      simp only [read]
      rw [h₀, htail, Nat.pow_succ', Nat.mod_mul]

/-- The same bytes at two places. -/
theorem read_shift (h : ∀ i < n, m' (b + i) = m (a + i)) : m'.read n b = m.read n a := by
  induction n generalizing a b with
  | zero => rfl
  | succ n ih =>
      have hrest : m'.read n (b + 1) = m.read n (a + 1) := ih fun i hi => by
        have hnext := h (i + 1) (Nat.succ_lt_succ hi)
        rwa [Nat.add_comm i 1, ← Nat.add_assoc, ← Nat.add_assoc] at hnext
      have hfirst := h 0 (Nat.zero_lt_succ n)
      rw [read, read, hrest]
      exact congrArg (fun x : UInt8 => x.toNat + 256 * m.read n (a + 1)) hfirst

theorem read_write_self (m : Mem) (n a v : Nat) : (m.write n a v).read n a = v % 256 ^ n := by
  apply read_of_digits
  intro i hi
  simp [write, hi]

theorem read_write_of_lt (m : Mem) (hv : v < 256 ^ n) : (m.write n a v).read n a = v := by
  rw [read_write_self, Nat.mod_eq_of_lt hv]

theorem read_write_ne (m : Mem) (v : Nat) (h : b + k ≤ a ∨ a + n ≤ b) :
    (m.write n a v).read k b = m.read k b := read_congr (write_same h)

theorem read_fill_zero (m : Mem) (h : a ≤ b) (h' : b + k ≤ a + n) : (m.fill a n 0).read k b = 0 := by
  have := read_of_digits (m := m.fill a n 0) (a := b) (n := k) (v := 0) (by
    intro i hi
    have hin : a ≤ b + i ∧ b + i < a + n := by omega
    simp [fill, hin])
  simpa using this

/-! ## Lists of bytes -/

@[simp] theorem length_bytes (m : Mem) (a n : Nat) : (m.bytes a n).length = n := by simp [bytes]

theorem bytes_congr (h : Same m m' a n) : m'.bytes a n = m.bytes a n := by
  apply List.map_congr_left
  intro i hi
  exact h (a + i) (by omega) (by have := List.mem_range.mp hi; omega)

theorem bytes_add (m : Mem) (a n k : Nat) : m.bytes a (n + k) = m.bytes a n ++ m.bytes (a + n) k := by
  simp only [bytes, List.range_add, List.map_append, List.map_map]
  congr 1
  apply List.map_congr_left
  intro i _
  simp [Nat.add_assoc]

theorem bytes_copy (m : Mem) (dst src n : Nat) : (m.copy dst src n).bytes dst n = m.bytes src n := by
  apply List.map_congr_left
  intro i hi
  simp [copy, List.mem_range.mp hi]

theorem take_bytes (m : Mem) (a n k : Nat) : (m.bytes a n).take k = m.bytes a (min k n) := by
  simp only [bytes, ← List.map_take, List.take_range]

theorem drop_bytes (m : Mem) (a : Nat) (h : k ≤ n) : (m.bytes a n).drop k = m.bytes (a + k) (n - k) := by
  have hadd := bytes_add m a k (n - k)
  rw [Nat.add_sub_of_le h] at hadd
  rw [hadd, List.drop_append_of_le_length (by simp), List.drop_of_length_le (by simp), List.nil_append]

/-! ## Storing lists of bytes -/

theorem put_apply_of_lt {bs : List UInt8} {x : Nat} (h : x < a) : m.put a bs x = m x := by
  simp [put, Nat.not_le.mpr h]

theorem put_apply_of_ge {bs : List UInt8} {x : Nat} (h : a + bs.length ≤ x) : m.put a bs x = m x := by
  have hlen : bs.length ≤ x - a := by omega
  simp [put, hlen]

theorem put_apply {bs : List UInt8} {i : Nat} (h : i < bs.length) : m.put a bs (a + i) = bs[i] := by
  simp [put, h]

@[simp] theorem put_nil (m : Mem) (a : Nat) : m.put a [] = m := by
  funext x
  simp [put]

theorem put_append (m : Mem) (a : Nat) (bs cs : List UInt8) :
    m.put a (bs ++ cs) = (m.put a bs).put (a + bs.length) cs := by
  funext x
  by_cases hlt : x < a
  · rw [put_apply_of_lt hlt, put_apply_of_lt (by omega), put_apply_of_lt hlt]
  · obtain ⟨i, rfl⟩ := Nat.exists_eq_add_of_le (Nat.not_lt.mp hlt)
    by_cases hi : i < bs.length
    · rw [put_apply_of_lt (Nat.add_lt_add_left hi a), put_apply hi,
        put_apply (by simp only [List.length_append]; omega), List.getElem_append_left hi]
    · obtain ⟨j, rfl⟩ := Nat.exists_eq_add_of_le (Nat.not_lt.mp hi)
      have hsub : a + (bs.length + j) - (a + bs.length) = j := by omega
      have hle : a + bs.length ≤ a + (bs.length + j) := by omega
      simp [put, hsub, hle, List.getElem?_append_right]

theorem copy_eq_put (m : Mem) (dst src n : Nat) : m.copy dst src n = m.put dst (m.bytes src n) := by
  funext x
  by_cases hlt : x < dst
  · rw [put_apply_of_lt hlt]
    simp [copy, Nat.not_le.mpr hlt]
  · obtain ⟨i, rfl⟩ := Nat.exists_eq_add_of_le (Nat.not_lt.mp hlt)
    by_cases hi : i < n
    · rw [put_apply (by simpa using hi)]
      simp [copy, bytes, hi]
    · rw [put_apply_of_ge (by simp only [length_bytes]; omega)]
      simp [copy, hi]

theorem bytes_put (m : Mem) (a : Nat) (bs : List UInt8) : (m.put a bs).bytes a bs.length = bs := by
  apply List.ext_getElem (by simp)
  intro i hi hi'
  simp only [bytes, List.getElem_map, List.getElem_range]
  exact put_apply hi'

/-- Bytes at the beginning of a cleared area. -/
theorem bytes_fill_put (m : Mem) (a : Nat) (b : UInt8) {bs : List UInt8} (h : bs.length ≤ n) :
    ((m.fill a n b).put a bs).bytes a n = bs ++ List.replicate (n - bs.length) b := by
  refine List.ext_getElem (by simp; omega) fun i hi _ => ?_
  rw [length_bytes] at hi
  simp only [bytes, List.getElem_map, List.getElem_range]
  by_cases hib : i < bs.length
  · rw [put_apply hib, List.getElem_append_left hib]
  · rw [put_apply_of_ge (by omega), List.getElem_append_right (by omega), List.getElem_replicate]
    exact if_pos ⟨Nat.le_add_right a i, by omega⟩

/-! ## The loops behind the closed forms -/

theorem fill_succ (m : Mem) (a n : Nat) (b : UInt8) :
    m.fill a (n + 1) b = (m.write 1 a b.toNat).fill (a + 1) n b := by
  funext x
  by_cases hx : x = a
  · subst hx; simp [fill, write]
  · by_cases hin : a ≤ x ∧ x < a + (n + 1)
    · have h₁ : a + 1 ≤ x ∧ x < a + 1 + n := by omega
      simp [fill, hin, h₁]
    · have h₁ : ¬(a + 1 ≤ x ∧ x < a + 1 + n) := by omega
      have h₂ : ¬(a ≤ x ∧ x < a + 1) := by omega
      simp only [fill, write, if_neg hin, if_neg h₁, if_neg h₂]

end Mem

end Lib
