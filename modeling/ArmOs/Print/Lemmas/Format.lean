import ArmOs.Print.Lemmas.Numbers

/-!
# The formatting loop

A format is a sequence of pieces, and the loop stores what the pieces render to, one after the other.
-/

namespace ArmOs

open Lib

variable {junk : Nat → UInt8} {format f buffer out : List UInt8} {args rest : List Arg} {a : Arg} {c d : UInt8}
  {s : PrintState} {fuel size : Nat} {write : List UInt8 → Nat → Except PrintStop (List UInt8)}

/-! ## What a format means -/

inductive Directive
  | hex | udecimal | decimal | string
  deriving DecidableEq, Repr

inductive Piece
  | char (c : UInt8)
  | directive (k : Directive)
  deriving DecidableEq, Repr

def Piece.isDirective : Piece → Bool
  | .char _ => false
  | .directive _ => true

def Directive.ofChar (c : UInt8) : Option Directive :=
  if c = char 'x' then
    some .hex
  else if c = char 'u' then
    some .udecimal
  else if c = char 'd' then
    some .decimal
  else if c = char 's' then
    some .string
  else
    none

def Directive.letter : Directive → UInt8
  | hex => ArmOs.char 'x'
  | udecimal => ArmOs.char 'u'
  | decimal => ArmOs.char 'd'
  | string => ArmOs.char 's'

/-- The pieces of a format. A `%` without the letter of a directive is a character like any other. -/
def pieces : List UInt8 → List Piece
  | [] => []
  | [c] => [.char c]
  | c :: d :: f =>
    match if c = char '%' then Directive.ofChar d else none with
    | some k => .directive k :: pieces f
    | none => .char c :: pieces (d :: f)

/-- The text that an argument is replaced with, if its type is the one of the directive. -/
def Directive.text : Directive → Arg → Option (List UInt8)
  | hex, .int64 v => some (ArmOs.hex v.toUInt64.toNat ++ [ArmOs.char 'H'])
  | udecimal, .int64 v => some (ArmOs.udecimal v.toUInt64.toNat)
  | decimal, .int32 v => some (ArmOs.decimal v.toInt)
  | string, .string s => if 0 ∈ s then some (stringText s) else none
  | _, _ => none

/-- The rendering and the arguments left over, if the arguments match the directives. -/
def render : List Piece → List Arg → Option (List UInt8 × List Arg)
  | [], args => some ([], args)
  | .char c :: ps, args => do
    let (out, rest) ← render ps args
    some (c :: out, rest)
  | .directive _ :: _, [] => none
  | .directive k :: ps, a :: args => do
    let text ← k.text a
    let (out, rest) ← render ps args
    some (text ++ out, rest)

theorem Directive.eq_letter {k : Directive} (h : Directive.ofChar d = some k) : d = k.letter := by
  rw [Directive.ofChar] at h
  split at h
  · cases h
    assumption
  · split at h
    · cases h
      assumption
    · split at h
      · cases h
        assumption
      · split at h
        · cases h
          assumption
        · cases h

theorem Directive.ne_letter (h : Directive.ofChar d = none) (k : Directive) : d ≠ k.letter := by
  intro hd
  rw [hd] at h
  cases k <;> cases h

theorem pieces_char (h : c = char '%' → f.head?.bind Directive.ofChar = none) :
    pieces (c :: f) = .char c :: pieces f := by
  cases f with
  | nil => rfl
  | cons d f =>
      rw [pieces]
      by_cases hc : c = char '%'
      · have hd : Directive.ofChar d = none := h hc
        simp [hc, hd]
      · simp [hc]

theorem pieces_directive {k : Directive} (h : Directive.ofChar d = some k) :
    pieces (char '%' :: d :: f) = .directive k :: pieces f := by
  simp [pieces, h]

theorem render_char_inv {ps : List Piece} (h : render (.char c :: ps) args = some (out, rest)) :
    ∃ out', render ps args = some (out', rest) ∧ out = c :: out' := by
  rw [render] at h
  obtain ⟨⟨out', rest'⟩, hr, h⟩ := Option.bind_eq_some_iff.mp h
  cases h
  exact ⟨out', hr, rfl⟩

theorem render_directive_inv {k : Directive} {ps : List Piece}
    (h : render (.directive k :: ps) args = some (out, rest)) :
    ∃ a args' text out', args = a :: args' ∧ k.text a = some text ∧ render ps args' = some (out', rest) ∧
      out = text ++ out' := by
  cases args with
  | nil => cases h
  | cons a args =>
      rw [render] at h
      obtain ⟨text, ht, h⟩ := Option.bind_eq_some_iff.mp h
      obtain ⟨⟨out', rest'⟩, hr, h⟩ := Option.bind_eq_some_iff.mp h
      cases h
      exact ⟨a, args, text, out', rfl, ht, hr, rfl⟩

/-! ## One round -/

/-- A directive stores the text of the next argument. -/
theorem formatSwitch_directive {k : Directive} {text : List UInt8} (hk : Directive.ofChar d = some k)
    (ha : s.args = a :: args) (ht : k.text a = some text) :
    formatSwitch junk d s =
      storeAll .store s.buffer s.bufferSize text >>= fun buffer =>
        .ok { s with buffer := buffer, bufferSize := s.bufferSize + text.length, args := args } := by
  obtain rfl := Directive.eq_letter hk
  rw [formatSwitch, ha]
  cases k with
  | hex =>
      rw [if_pos (by decide)]
      cases a with
      | int64 v =>
          cases ht
          simp only [vaInt64, ok_bind, hexToString_eq, bind_assoc]
          rfl
      | int32 v => cases ht
      | string t => cases ht
  | udecimal =>
      rw [if_neg (by decide), if_pos (by decide)]
      cases a with
      | int64 v =>
          cases ht
          simp only [vaInt64, ok_bind, udecimalToString_eq, bind_assoc]
          rfl
      | int32 v => cases ht
      | string t => cases ht
  | decimal =>
      rw [if_neg (by decide), if_neg (by decide), if_pos (by decide)]
      cases a with
      | int64 v => cases ht
      | int32 v =>
          cases ht
          simp only [vaInt32, ok_bind, decimalToString_eq, Int32.toInt_toInt64, bind_assoc]
          rfl
      | string t => cases ht
  | string =>
      rw [if_neg (by decide), if_neg (by decide), if_neg (by decide), if_pos (by decide)]
      cases a with
      | int64 v => cases ht
      | int32 v => cases ht
      | string t =>
          obtain ⟨hnul, rfl⟩ : 0 ∈ t ∧ stringText t = text := by simpa [Directive.text] using ht
          simp only [vaString, ok_bind, readString_eq hnul, bind_assoc]
          rfl

theorem formatSwitch_default (hd : Directive.ofChar d = none) :
    formatSwitch junk d s =
      store .store s.buffer s.bufferSize (char '%') >>= fun buffer =>
        .ok { s with buffer := buffer, bufferSize := s.bufferSize + 1, i := s.i - 1 } := by
  have hx : d ≠ char 'x' := Directive.ne_letter hd .hex
  have hu : d ≠ char 'u' := Directive.ne_letter hd .udecimal
  have hd' : d ≠ char 'd' := Directive.ne_letter hd .decimal
  have hs : d ≠ char 's' := Directive.ne_letter hd .string
  rw [formatSwitch, if_neg hx, if_neg hu, if_neg hd', if_neg hs]
  rfl

theorem get_of_drop {i : Nat} (h : format.drop i = c :: f) : format[i]? = some c := by
  rw [← List.head?_drop, h]
  rfl

theorem drop_succ_of_drop {i : Nat} (h : format.drop i = c :: f) : format.drop (i + 1) = f := by
  rw [← List.drop_drop, h]
  rfl

/-- A character that does not begin a directive is copied, and the index stays where it is. -/
theorem formatBody_char (hdrop : format.drop s.i = c :: (f ++ [0]))
    (h : c = char '%' → f.head?.bind Directive.ofChar = none) :
    formatBody junk format c s =
      store .store s.buffer s.bufferSize c >>= fun buffer =>
        .ok { s with buffer := buffer, bufferSize := s.bufferSize + 1 } := by
  rw [formatBody]
  split
  · rfl
  · rename_i hc
    have hc' : c = char '%' := not_not.mp hc
    have hnext := drop_succ_of_drop hdrop
    -- The next character may be the NUL.
    obtain ⟨d, f', hd, hnone⟩ : ∃ d f', format.drop (s.i + 1) = d :: f' ∧ Directive.ofChar d = none := by
      cases f with
      | nil => exact ⟨0, [], hnext, rfl⟩
      | cons d f =>
          rw [List.cons_append] at hnext
          exact ⟨d, f ++ [0], hnext, h hc'⟩
    rw [load_of_get (get_of_drop hd), ok_bind, formatSwitch_default hnone, hc']
    rfl

theorem formatBody_directive {k : Directive} {text : List UInt8} (hdrop : format.drop s.i = char '%' :: d :: f)
    (hk : Directive.ofChar d = some k) (ha : s.args = a :: args) (ht : k.text a = some text) :
    formatBody junk format (char '%') s =
      storeAll .store s.buffer s.bufferSize text >>= fun buffer =>
        .ok ⟨s.i + 1, buffer, s.bufferSize + text.length, args⟩ := by
  rw [formatBody, if_neg (not_not.mpr rfl), load_of_get (get_of_drop (drop_succ_of_drop hdrop)), ok_bind]
  exact formatSwitch_directive hk ha ht

/-! ## The loop -/

/-- The induction is on the rounds: each one renders one piece and goes on behind it. -/
theorem formatLoop_eq (junk : Nat → UInt8) (hdrop : format.drop s.i = f ++ [0]) (hnul : 0 ∉ f) (hfuel : f.length < fuel)
    (hrender : render (pieces f) s.args = some (out, rest)) :
    formatLoop junk format fuel s =
      storeAll .store s.buffer s.bufferSize out >>= fun buffer =>
        .ok ⟨s.i + f.length, buffer, s.bufferSize + out.length, rest⟩ := by
  induction fuel generalizing f s out with
  | zero => exact absurd hfuel (Nat.not_lt_zero _)
  | succ fuel ih =>
      cases f with
      | nil =>
          cases hrender
          rw [formatLoop, load_of_get (get_of_drop hdrop)]
          rfl
      | cons c f =>
          have hc : c ≠ 0 := fun h => hnul (h ▸ List.mem_cons_self)
          have hnul' : 0 ∉ f := fun h => hnul (List.mem_cons_of_mem c h)
          rw [List.length_cons] at hfuel
          rw [List.cons_append] at hdrop
          rw [formatLoop, load_of_get (get_of_drop hdrop), ok_bind, if_neg hc]
          by_cases hdir : c = char '%' ∧ ∃ k, f.head?.bind Directive.ofChar = some k
          · obtain ⟨rfl, k, hk⟩ := hdir
            cases f with
            | nil => cases hk
            | cons d f =>
                have hk' : Directive.ofChar d = some k := hk
                rw [pieces_directive hk'] at hrender
                obtain ⟨a, args', text, out', ha, ht, hr, rfl⟩ := render_directive_inv hrender
                have hnul'' : 0 ∉ f := fun h => hnul' (List.mem_cons_of_mem d h)
                have hnext : format.drop (s.i + 1 + 1) = f ++ [0] := drop_succ_of_drop (drop_succ_of_drop hdrop)
                have hfuel' : f.length < fuel := by
                  rw [List.length_cons] at hfuel
                  omega
                rw [formatBody_directive hdrop hk' ha ht, bind_assoc, storeAll_append, bind_assoc]
                simp only [ok_bind]
                apply congrArg
                funext buffer
                rw [ih (s := ⟨s.i + 1 + 1, buffer, _, args'⟩) hnext hnul'' hfuel' hr]
                simp only [List.length_append, List.length_cons, Nat.add_assoc, Nat.add_comm 1]
          · have hplain : c = char '%' → f.head?.bind Directive.ofChar = none := by
              intro hpercent
              cases hk : f.head?.bind Directive.ofChar with
              | none => rfl
              | some k => exact absurd ⟨hpercent, k, hk⟩ hdir
            rw [pieces_char hplain] at hrender
            obtain ⟨out', hr, rfl⟩ := render_char_inv hrender
            have hnext : format.drop (s.i + 1) = f ++ [0] := drop_succ_of_drop hdrop
            rw [formatBody_char hdrop hplain, bind_assoc, storeAll_cons, bind_assoc]
            simp only [ok_bind]
            apply congrArg
            funext buffer
            rw [ih (s := ⟨s.i + 1, buffer, s.bufferSize + 1, s.args⟩) hnext hnul' (by omega) hr]
            simp only [List.length_cons, Nat.add_assoc, Nat.add_comm 1]

/-! ## The whole call -/

theorem writeConsole_eq (h : size ≤ buffer.length) : writeConsole buffer size = .ok (buffer.take size) := by
  induction size with
  | zero => rfl
  | succ size ih =>
      have hget : buffer[size]? = some buffer[size] := List.getElem?_eq_getElem h
      have hlast : [size].mapM (load PrintStop.load buffer) = .ok [buffer[size]] := by
        simp [load_of_get hget, pure, Except.pure]
      have hinit : (List.range size).mapM (load PrintStop.load buffer) = .ok (buffer.take size) := ih (Nat.le_of_lt h)
      rw [writeConsole, List.range_succ, List.mapM_append, hinit, hlast, List.take_add_one, hget]
      rfl

theorem printed_eq (hnul : 0 ∉ f) (hrender : render (pieces f) args = some (out, rest)) :
    printed junk write (f ++ [0]) args =
      storeAll .store (localArray junk 1024) 0 out >>= fun buffer =>
        write buffer out.length >>= fun output => .ok ⟨out.length, output, rest⟩ := by
  have hfuel : f.length < (f ++ [0]).length := by simp
  have hloop := formatLoop_eq junk (s := ⟨0, localArray junk 1024, 0, args⟩) (List.drop_zero (l := f ++ [0])) hnul hfuel
    hrender
  simp only [printed, hloop, bind_assoc, ok_bind, Nat.zero_add]
  rfl

theorem printed_fits (hwrite : ∀ buffer size, write buffer size = writeConsole buffer size) (hnul : 0 ∉ f)
    (h : render (pieces f) args = some (out, rest)) (hlen : out.length ≤ 1024) :
    printed junk write (f ++ [0]) args = .ok ⟨out.length, out, rest⟩ := by
  have hroom : 0 + out.length ≤ (localArray junk 1024).length := by
    rw [localArray_length, Nat.zero_add]
    exact hlen
  have htake := overwrite_take out (Nat.zero_le (localArray junk 1024).length)
  rw [List.take_zero, List.nil_append, Nat.zero_add] at htake
  have hsize : out.length ≤ (overwrite (localArray junk 1024) 0 out).length := by
    rw [overwrite_length hroom, localArray_length]
    exact hlen
  rw [printed_eq hnul h, storeAll_of_le hroom, ok_bind, hwrite, writeConsole_eq hsize, htake, ok_bind]

theorem printed_overruns (hnul : 0 ∉ f) (h : render (pieces f) args = some (out, rest)) (hlen : 1024 < out.length) :
    printed junk write (f ++ [0]) args = .error .store := by
  have hlong : (localArray junk 1024).length < 0 + out.length := by
    rw [localArray_length, Nat.zero_add]
    exact hlen
  rw [printed_eq hnul h, storeAll_of_lt (Nat.zero_le _) hlong]
  rfl

end ArmOs
