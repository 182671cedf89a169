import ArmOs.Lib.Pad
import ArmOs.Print.Lemmas.Format
import ArmOs.User.Console

/-!
# Line editing

The buffer holds the line that the keys make, followed by zeros, and the screen shows it.
-/

namespace ArmOs

open Lib

variable (junk : Nat → UInt8) {line keys : List UInt8} {key c : UInt8} {s t : CmdState}

/-! ## What the keys mean -/

/-- The line after a key. -/
def edit (line : List UInt8) (key : UInt8) : List UInt8 := if key = 127 then line.dropLast else line ++ [key]

def Printable (key : UInt8) : Prop := 32 ≤ key.toNat ∧ key.toNat ≤ 126

/-- What a terminal shows after `line`: backspace, blank and backspace in a row erase a character. -/
def shown (line : List UInt8) : List UInt8 → List UInt8
  | [] => line
  | [a] => line ++ [a]
  | [a, b] => line ++ [a, b]
  | a :: b :: c :: out => if a = 8 ∧ b = 32 ∧ c = 8 then shown line.dropLast out else shown (line ++ [a]) (b :: c :: out)

theorem shown_char (hc : Printable c) (out : List UInt8) : shown line (c :: out) = shown (line ++ [c]) out := by
  have hne : c ≠ 8 := by
    intro h
    rw [h] at hc
    exact absurd hc.1 (by decide)
  cases out with
  | nil => rfl
  | cons a out =>
      cases out with
      | nil => simp [shown]
      | cons b out => rw [shown, if_neg fun h => hne h.1]

theorem shown_erase (line out : List UInt8) : shown line ([8, 32, 8] ++ out) = shown line.dropLast out := by
  simp [shown]

/-! ## The scratch string and the buffer -/

/-- The buffer holds `line` and then zeros, and the scratch string has at most one character. -/
structure Holds (line : List UInt8) (s : CmdState) : Prop where
  ch : ∃ c, s.ch = [c, 0, 0, 0]
  buffer : s.buffer = pad 0 100 line
  size : s.bufferSize = line.length
  length_le : line.length ≤ 81

theorem holds_initial : Holds [] CmdState.initial := ⟨⟨0, rfl⟩, rfl, rfl, Nat.zero_le _⟩

theorem pad_erase {b x : UInt8} {n : Nat} {xs : List UInt8} (h : xs.length < n) :
    (pad b n (xs ++ [x])).set xs.length b = pad b n xs := by
  have hlen : n - xs.length = n - (xs ++ [x]).length + 1 := by
    rw [List.length_append, List.length_singleton]
    omega
  simp [pad, hlen, List.replicate_succ]

/-- The echo is the scratch string up to its NUL. -/
theorem echo_eq (h : 0 ∈ s.ch) (hlen : s.ch.length ≤ 4) :
    s.echo junk = .ok { s with screen := s.screen ++ stringText s.ch } := by
  have hpieces : pieces ("%s".toList.map char) = [.directive .string] := by decide
  have hrender : render (pieces ("%s".toList.map char)) [.string s.ch] = some (stringText s.ch, []) := by
    rw [hpieces]
    simp [render, Directive.text, h]
  have htext : (stringText s.ch).length ≤ s.ch.length := (List.takeWhile_prefix _).length_le
  have hprint : printed junk writeu ("%s".toList.map char ++ [0]) [.string s.ch] =
      .ok ⟨(stringText s.ch).length, stringText s.ch, []⟩ :=
    printed_fits (fun _ _ => rfl) (by decide) hrender (by omega)
  rw [CmdState.echo, literal, printf, hprint]
  rfl

/-- Every round begins by putting the key into the scratch string. -/
theorem setCh_key (h : Holds line s) (key : UInt8) :
    s.setCh 0 key = .ok { s with ch := [key, 0, 0, 0] } ∧ Holds line { s with ch := [key, 0, 0, 0] } := by
  obtain ⟨c, hc⟩ := h.ch
  constructor
  · rw [CmdState.setCh, hc]
    rfl
  · exact ⟨⟨key, rfl⟩, h.buffer, h.size, h.length_le⟩

/-! ## The branches -/

theorem append_holds (h : Holds line s) (hch : s.ch = [key, 0, 0, 0]) (hroom : line.length ≤ 80) :
    ∃ t, s.append junk key = .ok t ∧ Holds (line ++ [key]) t ∧ t.screen = s.screen ++ stringText [key, 0, 0, 0] := by
  have hstore : s.setBuffer s.bufferSize key = .ok { s with buffer := pad 0 100 (line ++ [key]) } := by
    have hlt : line.length < (pad 0 100 line).length := by
      rw [pad, List.length_append, List.length_replicate]
      omega
    rw [CmdState.setBuffer, h.buffer, h.size, store_of_lt hlt, pad_set (by omega)]
    rfl
  refine ⟨{ ch := s.ch, buffer := pad 0 100 (line ++ [key]), bufferSize := s.bufferSize + 1,
            screen := s.screen ++ stringText s.ch }, ?_, ⟨⟨key, hch⟩, rfl, ?_, ?_⟩, ?_⟩
  · rw [CmdState.append, hstore, ok_bind]
    apply echo_eq
    · simp [hch]
    · simp [hch]
  · rw [List.length_append, List.length_singleton, h.size]
  · rw [List.length_append, List.length_singleton]
    omega
  · rw [hch]

/-- The last character goes from the buffer and from the screen. -/
theorem erase_holds (h : Holds line s) :
    ∃ t, s.erase junk = .ok t ∧ Holds line.dropLast t ∧ t.screen = s.screen ++ if line = [] then [] else [8, 32, 8] := by
  cases line using List.reverseRecOn with
  | nil =>
      have hzero : ¬s.bufferSize > 0 := by simp [h.size]
      exact ⟨s, by rw [CmdState.erase, if_neg hzero]; rfl, h, by simp⟩
  | append_singleton line x =>
      obtain ⟨c, hc⟩ := h.ch
      have hlen := h.length_le
      have hsize := h.size
      rw [List.length_append, List.length_singleton] at hlen hsize
      have hpos : s.bufferSize > 0 := by omega
      have hpred : s.bufferSize - 1 = line.length := by omega
      have hlt : line.length < (pad 0 100 (line ++ [x])).length := by
        rw [pad, List.length_append, List.length_append, List.length_singleton]
        omega
      have hstore : CmdState.setBuffer line.length 0 { s with bufferSize := line.length } =
          .ok { s with bufferSize := line.length, buffer := pad 0 100 line } := by
        rw [CmdState.setBuffer, h.buffer, store_of_lt hlt, pad_erase (by omega)]
        rfl
      refine ⟨{ ch := [8, 0, 0, 0], buffer := pad 0 100 line, bufferSize := line.length,
                screen := s.screen ++ [8, 32, 8] }, ?_, ⟨⟨8, rfl⟩, by simp, by simp, by simp; omega⟩, by simp⟩
      have hch : (CmdState.setCh 0 8 { s with bufferSize := line.length, buffer := pad 0 100 line } >>=
          CmdState.setCh 1 (char ' ') >>= CmdState.setCh 2 8) =
            .ok { s with bufferSize := line.length, buffer := pad 0 100 line, ch := [8, 32, 8, 0] } := by
        simp only [CmdState.setCh, hc]
        rfl
      rw [CmdState.erase, if_pos hpos]
      simp only [hpred, hstore, hch, ok_bind]
      rw [echo_eq junk (by simp) (by simp)]
      rfl

theorem leave_holds (h : Holds line s) (hch : s.ch = [key, 0, 0, 0]) :
    ∃ t, s.leave junk key = .ok t ∧ Holds line t := by
  rw [CmdState.leave]
  by_cases hcr : key = char '\r'
  · have hset : (s.setCh 0 (char '\r') >>= CmdState.setCh 1 (char '\n')) = .ok { s with ch := [13, 10, 0, 0] } := by
      simp only [CmdState.setCh, hch]
      rfl
    simp only [if_pos hcr, hset, ok_bind]
    rw [echo_eq junk (by simp) (by simp)]
    exact ⟨_, rfl, ⟨13, rfl⟩, h.buffer, h.size, h.length_le⟩
  · simp only [if_neg hcr]
    rw [pure_bind, echo_eq junk (by simp [hch]) (by simp [hch]), ok_bind, CmdState.setCh, hch]
    exact ⟨_, rfl, ⟨key, rfl⟩, h.buffer, h.size, h.length_le⟩

/-! ## A stream of keys -/

theorem stringText_printable (h : Printable key) : stringText [key, 0, 0, 0] = [key] := by
  have hne : key ≠ 0 := by
    intro hz
    rw [hz] at h
    exact absurd h.1 (by decide)
  simp [stringText, hne]

/-- What the terminal gets for a key changes what it shows the way the key changes the line. -/
def Echoes (line keys out : List UInt8) : Prop :=
  (∀ k ∈ keys, Printable k ∨ k = 127 ∨ k = char '\r') → ∀ more, shown line (out ++ more) = shown (keys.foldl edit line) more

/-- Where `read_cmd` is after `keys`, when it had `line` and the screen `screen` before them. -/
def CmdResult.After (line screen keys : List UInt8) : CmdResult → Prop
  | reading t =>
    char '\r' ∉ keys ∧ Holds (keys.foldl edit line) t ∧ ∃ out, t.screen = screen ++ out ∧ Echoes line keys out
  | returned t rest =>
    ∃ before key, keys = before ++ key :: rest ∧ Holds (before.foldl edit line) t ∧
      (key = char '\r' ∨ (before.foldl edit line).length = 81)

theorem CmdResult.After.cons {screen out : List UInt8} {r : CmdResult} (hr : key ≠ char '\r')
    (hout : key = 127 ∨ Printable key → ∀ more, shown line (out ++ more) = shown (edit line key) more)
    (h : After (edit line key) (screen ++ out) keys r) : After line screen (key :: keys) r := by
  cases r with
  | reading t =>
      obtain ⟨hnot, hholds, rest, hscreen, hechoes⟩ := h
      refine ⟨by simp [hr.symm, hnot], hholds, out ++ rest, by rw [hscreen, List.append_assoc], ?_⟩
      intro hkeys more
      have hkey : key = 127 ∨ Printable key := by
        rcases hkeys key List.mem_cons_self with hp | h127 | hcr
        · exact .inr hp
        · exact .inl h127
        · exact absurd hcr hr
      rw [List.append_assoc, hout hkey, hechoes fun k hk => hkeys k (List.mem_cons_of_mem key hk)]
      rfl
  | returned t rest =>
      obtain ⟨before, last, rfl, hholds, hend⟩ := h
      exact ⟨key :: before, last, rfl, hholds, hend⟩

theorem readCmd_after (keys : List UInt8) (h : Holds line s) : ∃ r, readCmd junk keys s = .ok r ∧ r.After line s.screen keys := by
  induction keys generalizing line s with
  | nil => exact ⟨_, rfl, by simp, h, [], by simp, fun _ _ => rfl⟩
  | cons key keys ih =>
      obtain ⟨hset, hkey⟩ := setCh_key h key
      rw [readCmd, hset, ok_bind]
      by_cases hends : CmdState.Ends key { s with ch := [key, 0, 0, 0] }
      · obtain ⟨t, ht, htholds⟩ := leave_holds junk hkey rfl
        rw [if_pos hends, ht]
        refine ⟨_, rfl, [], key, rfl, htholds, hends.imp_right fun hsize => ?_⟩
        have hlt : 80 < line.length := h.size ▸ hsize
        exact Nat.le_antisymm h.length_le hlt
      · have hne : key ≠ char '\r' := fun hk => hends (.inl hk)
        have hroom : line.length ≤ 80 := by
          rw [← h.size]
          exact Nat.le_of_not_lt fun hsize => hends (.inr hsize)
        rw [if_neg hends]
        by_cases h127 : key = 127
        · obtain ⟨t, ht, htholds, hscreen⟩ := erase_holds junk hkey
          have hedit : Holds (edit line key) t := by
            rw [edit, if_pos h127]
            exact htholds
          obtain ⟨r, hr, hafter⟩ := ih hedit
          rw [if_pos h127, ht]
          refine ⟨r, hr, .cons hne (fun _ more => ?_) (hscreen ▸ hafter)⟩
          rw [edit, if_pos h127]
          split
          · simp [*]
          · exact shown_erase line more
        · obtain ⟨t, ht, htholds, hscreen⟩ := append_holds junk hkey rfl hroom
          have hedit : Holds (edit line key) t := by
            rw [edit, if_neg h127]
            exact htholds
          obtain ⟨r, hr, hafter⟩ := ih hedit
          rw [if_neg h127, ht]
          refine ⟨r, hr, .cons hne (fun hp more => ?_) (hscreen ▸ hafter)⟩
          have hprint : Printable key := hp.resolve_left h127
          rw [edit, if_neg h127, stringText_printable hprint]
          exact shown_char hprint more

theorem readCmd_edits (junk : Nat → UInt8) (keys : List UInt8) :
    ∃ r, readCmd junk keys CmdState.initial = .ok r ∧
      match r with
      | .reading t =>
        char '\r' ∉ keys ∧ Holds (keys.foldl edit []) t ∧
          ((∀ k ∈ keys, Printable k ∨ k = 127 ∨ k = char '\r') → shown [] t.screen = t.buffer.take t.bufferSize)
      | .returned t rest =>
        ∃ before key, keys = before ++ key :: rest ∧ Holds (before.foldl edit []) t ∧
          (key = char '\r' ∨ (before.foldl edit []).length = 81) := by
  obtain ⟨r, hr, hafter⟩ := readCmd_after junk keys holds_initial
  refine ⟨r, hr, ?_⟩
  cases r with
  | reading t =>
      obtain ⟨hnot, hholds, out, hscreen, hechoes⟩ := hafter
      refine ⟨hnot, hholds, fun hkeys => ?_⟩
      have htake : t.buffer.take t.bufferSize = keys.foldl edit [] := by
        rw [hholds.buffer, hholds.size, pad, List.take_left]
      have hshown := hechoes hkeys []
      rw [List.append_nil] at hshown
      rw [htake, hscreen]
      exact hshown
  | returned t rest => exact hafter

end ArmOs
