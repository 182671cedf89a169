import ArmOs.Kernel.Print
import ArmOs.Lib.Numeral

/-!
# The converters

What each of them stores is a text that does not depend on the buffer.
-/

namespace ArmOs

open Lib

variable {junk : Nat → UInt8} {digitsMap digitsBuffer buffer string text : List UInt8} {base digits : UInt64}
  {position size fuel index i n d : Nat} {v : Int}

/-! ## The texts -/

def digitChar (d : Nat) : UInt8 := if d < 10 then (48 + d).toUInt8 else (55 + d).toUInt8

def udecimal (n : Nat) : List UInt8 := (numeral 10 n).map digitChar

def hex (n : Nat) : List UInt8 := (numeral 16 n).map digitChar

def decimal (v : Int) : List UInt8 :=
  if v < 0 then char '-' :: udecimal v.natAbs else udecimal v.natAbs

/-- The characters of a string up to its NUL. -/
def stringText (string : List UInt8) : List UInt8 := string.takeWhile (· ≠ 0)

/-! ## Reading them back -/

/-- The value of a digit in the base `b`. -/
def digitValue (b : Nat) (c : UInt8) : Option Nat :=
  if 48 ≤ c.toNat ∧ c.toNat < 58 then
    some (c.toNat - 48)
  else if 65 ≤ c.toNat ∧ c.toNat < 55 + b then
    some (c.toNat - 55)
  else
    none

def parseUnsigned (b : Nat) (cs : List UInt8) : Option Nat := parse (digitValue b) b cs

def parseSigned : List UInt8 → Option Int
  | [] => none
  | c :: cs =>
    if c = char '-' then
      (parseUnsigned 10 cs).map fun n : Nat => -(n : Int)
    else
      (parseUnsigned 10 (c :: cs)).map fun n : Nat => (n : Int)

/-- A numeral without leading zeros. -/
structure Canonical (b : Nat) (cs : List UInt8) : Prop where
  ne_nil : cs ≠ []
  digits : ∀ c ∈ cs, ∃ d < b, c = digitChar d
  head : cs.head? = some (char '0') → cs = [char '0']

/-- A numeral, or a minus sign and the numeral of a positive number. -/
inductive CanonicalSigned : List UInt8 → Prop
  | nonneg {cs : List UInt8} (h : Canonical 10 cs) : CanonicalSigned cs
  | neg {cs : List UInt8} (h : Canonical 10 cs) (hpos : cs ≠ [char '0']) : CanonicalSigned (char '-' :: cs)

theorem digitChar_toNat (hd : d < 16) : (digitChar d).toNat = if d < 10 then 48 + d else 55 + d := by
  rw [digitChar]
  split <;> simp [Nat.toUInt8, UInt8.toNat_ofNat'] <;> omega

theorem digitValue_digitChar {b : Nat} (hb : b = 10 ∨ b = 16) (hd : d < b) : digitValue b (digitChar d) = some d := by
  rw [digitValue, digitChar_toNat (by omega)]
  by_cases h : d < 10
  · rw [if_pos h, if_pos ⟨by omega, by omega⟩, Nat.add_sub_cancel_left]
  · rw [if_neg h, if_neg (by omega), if_pos ⟨by omega, by omega⟩, Nat.add_sub_cancel_left]

theorem digitChar_eq_zero (hd : d < 16) (h : digitChar d = char '0') : d = 0 := by
  have hnat := congrArg UInt8.toNat h
  rw [digitChar_toNat hd] at hnat
  simp only [char, Nat.toUInt8, UInt8.toNat_ofNat'] at hnat
  split at hnat
  · exact Nat.add_left_cancel hnat
  · have h48 : 55 + d = 48 := hnat
    omega

theorem canonical_numeral {b : Nat} (hb : b = 10 ∨ b = 16) (n : Nat) : Canonical b ((numeral b n).map digitChar) := by
  have hone : 1 < b := by omega
  constructor
  · simp
  · intro c hc
    obtain ⟨d, hd, rfl⟩ := List.mem_map.mp hc
    exact ⟨d, numeral_digit_lt hone hd, rfl⟩
  · intro hhead
    rw [List.head?_map, Option.map_eq_some_iff] at hhead
    obtain ⟨d, hd, hzero⟩ := hhead
    have hlt : d < b := numeral_digit_lt hone (List.mem_of_mem_head? hd)
    rw [digitChar_eq_zero (by omega) hzero] at hd
    rw [(numeral_head hd).1]
    rfl

theorem parse_udecimal (n : Nat) : parseUnsigned 10 (udecimal n) = some n :=
  parse_numeral (by decide) (fun _ => digitValue_digitChar (.inl rfl)) n

theorem parse_hex (n : Nat) : parseUnsigned 16 (hex n) = some n :=
  parse_numeral (by decide) (fun _ => digitValue_digitChar (.inr rfl)) n

theorem udecimal_eq_zero (h : udecimal n = [char '0']) : n = 0 := by
  have hp := parse_udecimal n
  rw [h] at hp
  exact (Option.some.inj hp).symm

theorem canonical_decimal (v : Int) : CanonicalSigned (decimal v) := by
  have hcanon : Canonical 10 (udecimal v.natAbs) := canonical_numeral (.inl rfl) v.natAbs
  rw [decimal]
  split
  · apply CanonicalSigned.neg hcanon
    intro h
    have hzero := udecimal_eq_zero h
    omega
  · exact .nonneg hcanon

theorem parse_decimal (v : Int) : parseSigned (decimal v) = some v := by
  have hparse := parse_udecimal v.natAbs
  rw [decimal]
  split
  · have habs : -(v.natAbs : Int) = v := by omega
    rw [parseSigned, if_pos rfl, hparse, Option.map_some, habs]
  · have habs : (v.natAbs : Int) = v := by omega
    have hcanon : Canonical 10 (udecimal v.natAbs) := canonical_numeral (.inl rfl) v.natAbs
    cases hcs : udecimal v.natAbs with
    | nil => exact absurd hcs hcanon.ne_nil
    | cons c cs =>
        -- A digit is not a minus sign.
        have hc : c ≠ char '-' := by
          obtain ⟨d, hd, rfl⟩ := hcanon.digits c (hcs ▸ List.mem_cons_self)
          intro h
          have hnat := congrArg UInt8.toNat h
          rw [digitChar_toNat (by omega), if_pos hd] at hnat
          have h45 : 48 + d = 45 := hnat
          omega
        rw [hcs] at hparse
        simp [parseSigned, hc, hparse, habs]

/-! ## `read_string` -/

theorem readStringLoop_eq (buffer : List UInt8) (position : Nat) (hnul : 0 ∈ string.drop index) (hfuel : (string.drop index).length < fuel) :
    readStringLoop string fuel index buffer position =
      storeAll .store buffer position (stringText (string.drop index)) >>= fun buffer =>
        .ok (buffer, index + (stringText (string.drop index)).length) := by
  induction fuel generalizing index buffer position with
  | zero => exact absurd hfuel (Nat.not_lt_zero _)
  | succ fuel ih =>
      cases hs : string.drop index with
      | nil =>
          rw [hs] at hnul
          cases hnul
      | cons c cs =>
          have hget : string[index]? = some c := by
            rw [← List.head?_drop, hs]
            rfl
          have hcs : string.drop (index + 1) = cs := by
            rw [← List.drop_drop, hs]
            rfl
          rw [hs] at hnul hfuel
          rw [readStringLoop, load_of_get hget, ok_bind]
          by_cases hc : c = 0
          · simp [hc, stringText, pure, Except.pure]
          · have hnul' : 0 ∈ string.drop (index + 1) := by
              rw [hcs]
              exact (List.mem_cons.mp hnul).resolve_left (Ne.symm hc)
            have hfuel' : (string.drop (index + 1)).length < fuel := by
              rw [hcs]
              exact Nat.lt_of_succ_lt_succ hfuel
            have htext : stringText (c :: cs) = c :: stringText cs := by simp [stringText, hc]
            rw [if_neg hc, htext, storeAll_cons, bind_assoc]
            simp only [ih _ _ hnul' hfuel', hcs, List.length_cons, Nat.add_assoc, Nat.add_comm 1]

theorem readString_eq (hnul : 0 ∈ string) :
    readString buffer position string =
      storeAll .store buffer position (stringText string) >>= fun buffer => .ok (buffer, (stringText string).length) := by
  have h := readStringLoop_eq buffer position (show 0 ∈ string.drop 0 from hnul) (Nat.lt_succ_self string.length)
  simpa only [readString, List.drop_zero, Nat.zero_add] using h

/-! ## The number converters -/

theorem digitsLoop_eq (hbase : 1 < base.toNat) (hmap : ∀ d < base.toNat, digitsMap[d]? = some (digitChar d))
    (hpos : 0 < fuel) (hfuel : digits.toNat < base.toNat ^ fuel) :
    digitsLoop digitsMap base fuel digits digitsBuffer size =
      storeAll .store digitsBuffer size ((numeral base.toNat digits.toNat).map digitChar).reverse >>=
        fun digitsBuffer => .ok (digitsBuffer, size + (numeral base.toNat digits.toNat).length) := by
  induction fuel generalizing digits digitsBuffer size with
  | zero => exact absurd hpos (Nat.lt_irrefl 0)
  | succ fuel ih =>
      have hmod : (digits % base).toNat = digits.toNat % base.toNat := UInt64.toNat_mod ..
      have hdiv : (digits / base).toNat = digits.toNat / base.toNat := UInt64.toNat_div ..
      have hlt : digits.toNat % base.toNat < base.toNat := Nat.mod_lt _ (by omega)
      have hload : load PrintStop.load digitsMap (digits % base).toNat = .ok (digitChar (digits.toNat % base.toNat)) := by
        rw [hmod]
        exact load_of_get (hmap _ hlt)
      rw [digitsLoop, hload, ok_bind]
      rcases Nat.lt_or_ge digits.toNat base.toNat with hsmall | hlarge
      · have hzero : digits / base = 0 := by
          apply UInt64.toNat_inj.mp
          rw [hdiv]
          exact Nat.div_eq_of_lt hsmall
        simp [hzero, numeral_of_lt hsmall, Nat.mod_eq_of_lt hsmall, storeAll_cons, pure, Except.pure]
      · have hne : digits / base ≠ 0 := by
          intro h
          have hnat := congrArg UInt64.toNat h
          rw [hdiv] at hnat
          have hge : 0 < digits.toNat / base.toNat := Nat.div_pos hlarge (by omega)
          exact absurd hnat hge.ne'
        have hrest : (digits / base).toNat < base.toNat ^ fuel := by
          rw [hdiv]
          apply Nat.div_lt_of_lt_mul
          rw [Nat.mul_comm, ← Nat.pow_succ]
          exact hfuel
        have hmore : 0 < fuel := by
          cases fuel with
          | zero =>
              rw [Nat.zero_add, Nat.pow_one] at hfuel
              omega
          | succ fuel => exact Nat.succ_pos fuel
        simp only [hne, ne_eq, not_false_eq_true, if_true, ih hmore hrest, hdiv, numeral_snoc hbase hlarge, List.map_append,
          List.map_singleton, List.reverse_append, List.reverse_singleton, List.singleton_append, storeAll_cons, bind_assoc,
          List.length_append, List.length_singleton, Nat.add_assoc, Nat.add_comm 1]

theorem reverseLoop_eq (h : i ≤ digitsBuffer.length) :
    reverseLoop digitsBuffer i buffer position = storeAll .store buffer position (digitsBuffer.take i).reverse := by
  induction i generalizing buffer position with
  | zero => rfl
  | succ i ih =>
      have hi : i < digitsBuffer.length := h
      have hget : digitsBuffer[i]? = some digitsBuffer[i] := List.getElem?_eq_getElem hi
      have htake : (digitsBuffer.take (i + 1)).reverse = digitsBuffer[i] :: (digitsBuffer.take i).reverse := by
        rw [List.take_add_one, hget]
        simp
      rw [reverseLoop, load_of_get hget, ok_bind, htake, storeAll_cons]
      simp only [ih (Nat.le_of_lt hi)]

@[simp] theorem localArray_length (junk : Nat → UInt8) (n : Nat) : (localArray junk n).length = n := by
  simp [localArray]

/-- A `uint64_t` has at most 20 digits in a base from 10 on, so the digits fit in the local array. -/
theorem numeral_uint64 {b : Nat} (hb : 10 ≤ b) (digits : UInt64) : (numeral b digits.toNat).length ≤ 20 := by
  apply numeral_length_le (by omega) (by decide)
  calc
    digits.toNat < 2 ^ 64 := digits.toNat_lt
    _ ≤ 10 ^ 20 := by decide
    _ ≤ b ^ 20 := Nat.pow_le_pow_left hb 20

/-- The local array is never overrun. -/
theorem digitsLoop_returns (hbase : 10 ≤ base.toNat) (hmap : ∀ d < base.toNat, digitsMap[d]? = some (digitChar d))
    (digits : UInt64) :
    digitsLoop digitsMap base 64 digits (localArray junk 25) 0 =
      .ok (overwrite (localArray junk 25) 0 ((numeral base.toNat digits.toNat).map digitChar).reverse,
        (numeral base.toNat digits.toNat).length) := by
  have hlen := numeral_uint64 hbase digits
  have hfuel : digits.toNat < base.toNat ^ 64 := calc
    digits.toNat < 2 ^ 64 := digits.toNat_lt
    _ ≤ base.toNat ^ 64 := Nat.pow_le_pow_left (by omega) 64
  have hfits : 0 + ((numeral base.toNat digits.toNat).map digitChar).reverse.length ≤ (localArray junk 25).length := by
    rw [List.length_reverse, List.length_map, localArray_length]
    omega
  rw [digitsLoop_eq (by omega) hmap (by decide) hfuel, storeAll_of_le hfits, ok_bind, Nat.zero_add]

theorem putDigits_eq (hbase : 10 ≤ base.toNat) (hmap : ∀ d < base.toNat, digitsMap[d]? = some (digitChar d)) :
    putDigits junk digitsMap base buffer position digits =
      storeAll .store buffer position ((numeral base.toNat digits.toNat).map digitChar) >>= fun buffer =>
        .ok (buffer, (numeral base.toNat digits.toNat).length) := by
  have hlen := numeral_uint64 hbase digits
  have htake := overwrite_take ((numeral base.toNat digits.toNat).map digitChar).reverse
    (Nat.zero_le (localArray junk 25).length)
  rw [List.length_reverse, List.length_map, List.take_zero, List.nil_append, Nat.zero_add] at htake
  have hle : (numeral base.toNat digits.toNat).length ≤
      (overwrite (localArray junk 25) 0 ((numeral base.toNat digits.toNat).map digitChar).reverse).length := by
    rw [overwrite_length, localArray_length]
    · omega
    · rw [List.length_reverse, List.length_map, localArray_length]
      omega
  simp only [putDigits, digitsLoop_returns hbase hmap, ok_bind]
  rw [reverseLoop_eq hle, htake, List.reverse_reverse]
  rfl

theorem decimalMap_get : ∀ d < (10 : UInt64).toNat, decimalMap[d]? = some (digitChar d) := by decide

theorem hexMap_get : ∀ d < (16 : UInt64).toNat, hexMap[d]? = some (digitChar d) := by decide

theorem udecimalToString_eq :
    udecimalToString junk buffer position digits =
      storeAll .store buffer position (udecimal digits.toNat) >>= fun buffer =>
        .ok (buffer, (udecimal digits.toNat).length) := by
  rw [udecimalToString, putDigits_eq (by decide) decimalMap_get, udecimal, List.length_map]
  rfl

theorem hexToString_eq :
    hexToString junk buffer position digits =
      storeAll .store buffer position (hex digits.toNat ++ [char 'H']) >>= fun buffer =>
        .ok (buffer, (hex digits.toNat ++ [char 'H']).length) := by
  have hnum : (hex digits.toNat).length = (numeral 16 digits.toNat).length := List.length_map _
  rw [hexToString, putDigits_eq (by decide) hexMap_get, storeAll_append, List.length_append, hnum, bind_assoc, bind_assoc]
  simp only [storeAll_cons, storeAll_nil, bind_assoc, ok_bind]
  rfl

theorem int64_toInt (v : Int64) :
    v.toInt = if v.toUInt64.toNat < 2 ^ 63 then (v.toUInt64.toNat : Int) else (v.toUInt64.toNat : Int) - 2 ^ 64 := by
  have h := BitVec.toInt_eq_toNat_cond v.toBitVec
  rw [Int64.toInt_toBitVec, Int64.toNat_toBitVec] at h
  rw [h]
  split <;> split <;> omega

theorem int64_lt_zero {v : Int64} : v < 0 ↔ v.toInt < 0 := Int64.lt_iff_toInt_lt

/-- The wrapped negation of a negative number is its magnitude, also for the least one. -/
theorem int64_neg_toUInt64 {v : Int64} (h : v < 0) : (-v).toUInt64.toNat = v.toInt.natAbs := by
  have hneg := int64_lt_zero.mp h
  have hlt := v.toUInt64.toNat_lt
  rw [Int64.toUInt64_neg, UInt64.toNat_neg]
  rw [int64_toInt] at hneg ⊢
  split at hneg
  · omega
  · have hsize : UInt64.size = 2 ^ 64 := rfl
    rw [if_neg ‹_›, hsize, Nat.mod_eq_of_lt (by omega)]
    omega

theorem int64_toUInt64 {v : Int64} (h : ¬v < 0) : v.toUInt64.toNat = v.toInt.natAbs := by
  have hneg := mt int64_lt_zero.mpr h
  have hlt := v.toUInt64.toNat_lt
  rw [int64_toInt] at hneg ⊢
  split at hneg
  · rw [if_pos ‹_›]
    omega
  · omega

theorem decimalToString_eq {v : Int64} :
    decimalToString junk buffer position v =
      storeAll .store buffer position (decimal v.toInt) >>= fun buffer => .ok (buffer, (decimal v.toInt).length) := by
  rw [decimalToString, decimal]
  split
  · rename_i h
    rw [if_pos (int64_lt_zero.mp h), storeAll_cons, bind_assoc]
    simp only [udecimalToString_eq, int64_neg_toUInt64 h, bind_assoc, ok_bind, List.length_cons, Nat.add_comm 1]
    rfl
  · rename_i h
    rw [if_neg (mt int64_lt_zero.mpr h), udecimalToString_eq, int64_toUInt64 h]

end ArmOs
