import ArmOs.Print.Lemmas.Format

/-!
# Formatted output

The converters write the numerals that parse back to the number, the output is the rendering of the format, and the
local buffer is kept exactly when the rendering fits in it.
-/

namespace ArmOs

open Lib

variable {junk : Nat → UInt8} {f out buffer text : List UInt8} {args rest : List Arg} {position : Nat}
  {write : List UInt8 → Nat → Except PrintStop (List UInt8)}

/-! ## Numbers -/

/-- With room for it, `converter` stores `text` from `position` on and nothing else, and returns its length. -/
def Writes (converter : List UInt8 → Nat → Except PrintStop (List UInt8 × Nat)) (text : List UInt8) : Prop :=
  ∀ buffer position, position + text.length ≤ buffer.length →
    converter buffer position =
      .ok (buffer.take position ++ text ++ buffer.drop (position + text.length), text.length)

theorem Writes.of_storeAll {converter : List UInt8 → Nat → Except PrintStop (List UInt8 × Nat)}
    (h : ∀ buffer position, converter buffer position =
      storeAll .store buffer position text >>= fun buffer => .ok (buffer, text.length)) : Writes converter text := by
  intro buffer position hroom
  rw [h, storeAll_of_le hroom]
  rfl

theorem numbers_round_trip (junk : Nat → UInt8) :
    (∀ v : UInt64, Writes (udecimalToString junk · · v) (udecimal v.toNat) ∧ Canonical 10 (udecimal v.toNat) ∧
      parseUnsigned 10 (udecimal v.toNat) = some v.toNat) ∧
    (∀ v : UInt64, Writes (hexToString junk · · v) (hex v.toNat ++ [char 'H']) ∧ Canonical 16 (hex v.toNat) ∧
      parseUnsigned 16 (hex v.toNat) = some v.toNat) ∧
    (∀ v : Int64, Writes (decimalToString junk · · v) (decimal v.toInt) ∧ CanonicalSigned (decimal v.toInt) ∧
      parseSigned (decimal v.toInt) = some v.toInt) ∧
    ∀ v : UInt64, (∃ r, digitsLoop decimalMap 10 64 v (localArray junk 25) 0 = .ok r) ∧
      ∃ r, digitsLoop hexMap 16 64 v (localArray junk 25) 0 = .ok r := by
  refine ⟨fun v => ⟨?_, ?_, ?_⟩, fun v => ⟨?_, ?_, ?_⟩, fun v => ⟨?_, ?_, ?_⟩, fun v => ⟨?_, ?_⟩⟩
  · exact .of_storeAll fun _ _ => udecimalToString_eq
  · exact canonical_numeral (.inl rfl) v.toNat
  · exact parse_udecimal v.toNat
  · exact .of_storeAll fun _ _ => hexToString_eq
  · exact canonical_numeral (.inr rfl) v.toNat
  · exact parse_hex v.toNat
  · exact .of_storeAll fun _ _ => decimalToString_eq
  · exact canonical_decimal v.toInt
  · exact parse_decimal v.toInt
  · exact ⟨_, digitsLoop_returns (by decide) decimalMap_get v⟩
  · exact ⟨_, digitsLoop_returns (by decide) hexMap_get v⟩

example : decimal (-9223372036854775808) = "-9223372036854775808".toList.map char := by decide

/-! ## The output -/

/-- The arguments are taken from the front, one for each directive. -/
theorem render_rest {ps : List Piece} (h : render ps args = some (out, rest)) :
    args.drop (ps.countP Piece.isDirective) = rest := by
  induction ps generalizing args out with
  | nil =>
      cases h
      rfl
  | cons p ps ih =>
      cases p with
      | char c =>
          obtain ⟨out', hr, rfl⟩ := render_char_inv h
          rw [List.countP_cons_of_neg (by simp [Piece.isDirective])]
          exact ih hr
      | directive k =>
          obtain ⟨a, args', text, out', rfl, ht, hr, rfl⟩ := render_directive_inv h
          rw [List.countP_cons_of_pos rfl, List.drop_succ_cons]
          exact ih hr

theorem printk_renders (hnul : 0 ∉ f) (h : render (pieces f) args = some (out, rest)) (hlen : out.length ≤ 1024) :
    printk junk (f ++ [0]) args = .ok ⟨out.length, out, rest⟩ ∧
      args.drop ((pieces f).countP Piece.isDirective) = rest :=
  ⟨printed_fits (fun _ _ => rfl) hnul h hlen, render_rest h⟩

/-- `%%d%` and an argument that nothing takes. -/
theorem printk_renders_percent :
    printk (fun _ => 0) (literal "a%%d%") [.int32 (-5), .int64 7] =
        .ok ⟨5, "a%-5%".toList.map char, [.int64 7]⟩ ∧
      List.drop ((pieces ("a%%d%".toList.map char)).countP Piece.isDirective) [Arg.int32 (-5), .int64 7] = [.int64 7] := by
  have h : render (pieces ("a%%d%".toList.map char)) [.int32 (-5), .int64 7] =
      some ("a%-5%".toList.map char, [.int64 7]) := by
    decide
  exact printk_renders (by decide) h (by decide)

/-! ## The local buffer -/

theorem printed_keeps_iff (hwrite : ∀ buffer size, write buffer size = writeConsole buffer size) (hnul : 0 ∉ f)
    (h : render (pieces f) args = some (out, rest)) :
    printed junk write (f ++ [0]) args ≠ .error .store ↔ out.length ≤ 1024 := by
  rcases Nat.lt_or_ge 1024 out.length with hlong | hfits
  · simp [printed_overruns hnul h hlong, hlong]
  · simp [printed_fits hwrite hnul h hfits, hfits]

theorem buffer_kept_iff (hnul : 0 ∉ f) (h : render (pieces f) args = some (out, rest)) :
    (printk junk (f ++ [0]) args ≠ .error .store ↔ out.length ≤ 1024) ∧
      (printf junk (f ++ [0]) args ≠ .error .store ↔ out.length ≤ 1024) :=
  ⟨printed_keeps_iff (fun _ _ => rfl) hnul h, printed_keeps_iff (fun _ _ => rfl) hnul h⟩

theorem buffer_kept_short :
    (printk (fun _ => 0) (literal "%x") [.int64 255] ≠ .error .store ↔ 3 ≤ 1024) ∧
      (printf (fun _ => 0) (literal "%x") [.int64 255] ≠ .error .store ↔ 3 ≤ 1024) := by
  have h : render (pieces ("%x".toList.map char)) [.int64 255] = some ("FFH".toList.map char, []) := by
    decide
  exact buffer_kept_iff (by decide) h

/-- A string of `n` characters. -/
def longString (n : Nat) : List UInt8 := List.replicate n (char 'a') ++ [0]

theorem longString_render (n : Nat) :
    render (pieces ("%s".toList.map char)) [.string (longString n)] = some (List.replicate n (char 'a'), []) := by
  have hpieces : pieces ("%s".toList.map char) = [.directive .string] := by decide
  have hnul : 0 ∈ longString n := by simp [longString]
  have htext : stringText (longString n) = List.replicate n (char 'a') := by
    rw [stringText, longString, List.takeWhile_append_of_pos]
    · simp
    · intro c hc
      rw [List.eq_of_mem_replicate hc]
      rfl
  rw [hpieces]
  simp [render, Directive.text, hnul, htext]

theorem longString_overruns :
    ¬∀ (junk : Nat → UInt8) (f out : List UInt8) (args rest : List Arg), 0 ∉ f →
      render (pieces f) args = some (out, rest) →
        printk junk (f ++ [0]) args ≠ .error .store ∧ printf junk (f ++ [0]) args ≠ .error .store := by
  intro h
  have hkept := h (fun _ => 0) ("%s".toList.map char) _ _ _ (by decide) (longString_render 1025)
  apply hkept.1
  apply printed_overruns (by decide) (longString_render 1025)
  rw [List.length_replicate]
  decide

end ArmOs
