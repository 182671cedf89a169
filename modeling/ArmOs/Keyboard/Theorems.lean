import ArmOs.Lib.Ops
import ArmOs.Keyboard.Lemmas.Effects

/-!
# The keyboard

`read_key_buffer` takes the read index before it sleeps and uses it afterwards. When several processes sleep in
it, a key press wakes them all with the same index: the second gets the character of the first again and moves
the read index past the write index. In the runs in which every reader that goes on finds its index still valid
the buffer is a first-in first-out queue.
-/

namespace ArmOs

open Lib

variable {L : Layout} {m : Mem} {s t o : Kernel} {ev : Event} {ls : List Label}

/-- The buffer holds `xs`, oldest first. -/
def KeyboardBuffer.Holds (b : KeyboardBuffer) (xs : List UInt8) : Prop := IsRing b.buffer b.size b.front b.end xs

/-- The buffer holds what was written and not yet taken. -/
def KeyInv (s : Kernel) : Prop := ∃ xs, s.keyBuffer.Holds xs ∧ QueueOp.replay (keyOps s.trace) = some xs

theorem KeyInv.ofSame (h : KeyInv s) (hs : SameKeys s t) : KeyInv t := by
  obtain ⟨xs, hx, hf⟩ := h
  exact ⟨xs, by rw [hs.keyBuffer]; exact hx, by rw [hs.ops]; exact hf⟩

theorem KeyInv.writeKeyBuffer (h : KeyInv s) (ch : UInt8) : KeyInv (writeKeyBuffer ch s) := by
  obtain ⟨xs, hx, hf⟩ := h
  unfold ArmOs.writeKeyBuffer
  dsimp only
  split
  · exact ⟨xs, hx, hf⟩
  · rename_i hfull
    have hroom : xs.length + 1 < s.keyBuffer.size := by
      have hne : xs.length + 1 ≠ s.keyBuffer.size := fun he => hfull (hx.full_iff.mpr he)
      have := hx.length_lt
      omega
    refine ⟨xs ++ [ch], hx.push hroom ch, ?_⟩
    rw [keyOps_append]
    exact QueueOp.replay_snoc hf _

theorem KeyInv.takeKey (h : KeyInv s) (hne : s.keyBuffer.front ≠ s.keyBuffer.end) :
    KeyInv (takeKey s.keyBuffer.front s).2 := by
  obtain ⟨xs, hx, hf⟩ := h
  cases xs with
  | nil => exact absurd (hx.front_eq_iff.mpr rfl) hne
  | cons x xs =>
      obtain ⟨hget, hpop⟩ := hx.pop
      refine ⟨xs, hpop, ?_⟩
      simp only [ArmOs.takeKey, keyOps_append]
      rw [show keyOps [.keyOut (s.keyBuffer.buffer s.keyBuffer.front)] = [.deq x] by simp [keyOps, hget]]
      rw [QueueOp.replay_snoc hf]
      simp [QueueOp.step]

/-- A reader that goes on after its sleep finds a character, and the read index is still the one it took. -/
def ReaderCurrent (o : Kernel) (ev : Event) : Prop :=
  ev = .resume → ∀ tf front, o.kont o.current = .readKeyBuffer tf front →
    front = o.keyBuffer.front ∧ o.keyBuffer.front ≠ o.keyBuffer.end

theorem KeyEffect.inv (he : KeyEffect o ev s t) (hg : ReaderCurrent o ev) (h : KeyInv s) : KeyInv t := by
  cases he with
  | same hs => exact h.ofSame hs
  | wrote ch ht =>
      rw [ht]
      exact h.writeKeyBuffer ch
  | @took front htake ht =>
      obtain ⟨rfl, hne⟩ : front = s.keyBuffer.front ∧ s.keyBuffer.front ≠ s.keyBuffer.end := by
        rcases htake with ⟨rfl, hne⟩ | ⟨hev, ⟨tf, hk⟩, rfl⟩
        · exact ⟨rfl, hne⟩
        · exact hg hev tf front hk
      rw [ht]
      exact h.takeKey hne

/-! ## Delivery -/

/-- The characters that `write_key_buffer` stored, in order. -/
def keyIns (tr : List Obs) : List UInt8 := tr.filterMap fun | .keyIn ch => some ch | _ => none

/-- The characters that `read_key_buffer` returned, in order. -/
def keyOuts (tr : List Obs) : List UInt8 := tr.filterMap fun | .keyOut ch => some ch | _ => none

theorem enqs_keyOps (tr : List Obs) : QueueOp.enqs (keyOps tr) = keyIns tr := by
  simp only [QueueOp.enqs, keyOps, keyIns, List.filterMap_filterMap]
  refine List.filterMap_congr fun o _ => ?_
  cases o <;> rfl

theorem deqs_keyOps (tr : List Obs) : QueueOp.deqs (keyOps tr) = keyOuts tr := by
  simp only [QueueOp.deqs, keyOps, keyOuts, List.filterMap_filterMap]
  refine List.filterMap_congr fun o _ => ?_
  cases o <;> rfl

/-- The characters returned are those stored, in the same order; the others are in the buffer. No call returned a
character that was stored only later. -/
structure KeysDelivered (t : Kernel) : Prop where
  pending : ∃ xs, keyIns t.trace = keyOuts t.trace ++ xs ∧ t.keyBuffer.Holds xs
  accepted : ∀ tr ch tr', t.trace = tr ++ .keyOut ch :: tr' → keyOuts tr ++ [ch] <+: keyIns tr

theorem KeyInv.delivered (h : KeyInv t) : KeysDelivered t := by
  obtain ⟨xs, hx, hf⟩ := h
  have henqs : ∀ {tr q}, QueueOp.replay (keyOps tr) = some q → keyIns tr = keyOuts tr ++ q := fun hq => by
    rw [← enqs_keyOps, ← deqs_keyOps]
    exact QueueOp.enqs_eq hq
  refine ⟨⟨xs, henqs hf, hx⟩, fun tr ch tr' htr => ?_⟩
  have hsplit : keyOps t.trace = keyOps (tr ++ [.keyOut ch]) ++ keyOps tr' := by
    rw [← keyOps_append, htr, List.append_assoc, List.singleton_append]
  rw [hsplit] at hf
  obtain ⟨q, hq⟩ := QueueOp.replay_prefix hf
  have hall := henqs hq
  simp only [keyIns, keyOuts, List.filterMap_append] at hall
  exact ⟨q, by simpa [keyIns, keyOuts] using hall.symm⟩

/-- As long as every reader that goes on after its sleep finds its read index valid, characters are returned once
each, in the order in which they were stored. -/
theorem keyboard_delivery (hboot : boot L m = .ok s)
    (hrun : Run (Guarded (fun a l => ReaderCurrent a l.event) (Step L)) s ls t) : KeysDelivered t := by
  have hstart : KeyInv s := by
    obtain ⟨hbuf, hops⟩ := boot_keys hboot
    refine ⟨[], ?_, by rw [hops]; rfl⟩
    rw [hbuf]
    exact IsRing.empty _ (by decide)
  have key : Good t ∧ KeyInv t := by
    refine hrun.invariant (I := fun u => Good u ∧ KeyInv u) ⟨good_of_boot hboot, hstart⟩ ?_
    rintro a l b ⟨hg, hk⟩ ⟨hguard, hstep⟩
    exact hstep.preserves (fun _ _ hga hp => (hp.keyEffect hga).inv hguard) hg hk
  exact key.2.delivered

/-- The read index of a reader that sleeps. -/
def Kont.front : Kont → Option Nat
  | .readKeyBuffer _ front => some front
  | _ => none

def Event.isResume : Event → Bool
  | .resume => true
  | _ => false

theorem readerCurrent_iff (o : Kernel) (ev : Event) : ReaderCurrent o ev ↔
    (ev.isResume → ∀ front ∈ (o.kont o.current).front, front = o.keyBuffer.front ∧ o.keyBuffer.front ≠ o.keyBuffer.end) := by
  cases ev with
  | resume =>
      rw [ReaderCurrent]
      cases o.kont o.current <;> simp [Kont.front, Event.isResume]
  | _ => simp [ReaderCurrent, Event.isResume]

instance readerCurrentDecidable (o : Kernel) (ev : Event) : Decidable (ReaderCurrent o ev) :=
  decidable_of_iff' _ (readerCurrent_iff o ev)

/-- A process waits for a key and gets it; its child reads the next one at once. -/
theorem keyboard_delivery_small : ∃ ls t, Reaches smallLayout smallMem ls t ∧
    ls.map Label.event = [.timer false, .svc .fork, .svc .keyboardRead, .uart (some 97), .timer false, .resume,
      .uart (some 98), .timer false, .svc .keyboardRead] ∧
    keyOuts t.trace = [97, 98] ∧ KeysDelivered t := by
  obtain ⟨s, ls, t, hboot, hrun, hevents, hkeys⟩ := smallGuarded_run (P := ReaderCurrent)
    (Q := fun t => keyOuts t.trace = [97, 98])
    (show (smallGuarded ReaderCurrent [.timer false, .svc .fork, .svc .keyboardRead, .uart (some 97), .timer false,
      .resume, .uart (some 98), .timer false, .svc .keyboardRead]).map _ = some true by decide +kernel)
  exact ⟨ls, t, .of_guarded hboot hrun, hevents, hkeys, keyboard_delivery hboot hrun⟩

/-- Two processes wait for a key, one key is pressed, and both calls return it. -/
theorem key_returned_twice : ∃ ls t, Reaches smallLayout smallMem ls t ∧
    ls.map Label.event = [.timer false, .svc .fork, .svc .keyboardRead, .svc .keyboardRead, .uart (some 97),
      .timer false, .resume, .timer false, .resume] ∧
    keyIns t.trace = [97] ∧ keyOuts t.trace = [97, 97] ∧ t.keyBuffer.front = 2 ∧ t.keyBuffer.end = 1 := by
  have h : (small [.timer false, .svc .fork, .svc .keyboardRead, .svc .keyboardRead, .uart (some 97),
      .timer false, .resume, .timer false, .resume]).map (fun r =>
        decide (keyIns r.2.trace = [97] ∧ keyOuts r.2.trace = [97, 97] ∧ r.2.keyBuffer.front = 2 ∧
          r.2.keyBuffer.end = 1)) = some true := by decide +kernel
  obtain ⟨⟨ls, t⟩, hr, hd⟩ := Option.map_eq_some_iff.mp h
  obtain ⟨s, hboot, hall⟩ := small_boot hr
  exact ⟨ls, t, small_reaches hr, performAll_events hall, of_decide_eq_true hd⟩

/-! ## The ring as a bounded queue -/

/-- A key is stored, or a process reads one while there is one. -/
inductive KeyOp
  | writeKeyBuffer (ch : UInt8)
  | readKeyBuffer

namespace KeyOp

/-- The result is the character that was read. -/
def perform (tf : Nat) (s : Kernel) : KeyOp → Except Stop (Option UInt8 × Kernel)
  | writeKeyBuffer ch => .ok (none, ArmOs.writeKeyBuffer ch s)
  | readKeyBuffer => ArmOs.readKeyBuffer tf s

/-- The operation on a queue of at most `KEYBOARD_BUFFER_MAX - 1` characters. -/
def spec (xs : List UInt8) : KeyOp → Option UInt8 × List UInt8
  | writeKeyBuffer ch => (none, if xs.length < keyboardBufferMax - 1 then xs ++ [ch] else xs)
  | readKeyBuffer => (xs.head?, xs.tail)

def Pre (xs : List UInt8) : KeyOp → Prop
  | writeKeyBuffer _ => True
  | readKeyBuffer => xs ≠ []

end KeyOp

/-- The buffer of the kernel holds `xs`, and what lies behind its array was never written. -/
structure KeysHeld (xs : List UInt8) (s : Kernel) : Prop where
  holds : s.keyBuffer.Holds xs
  size : s.keyBuffer.size = keyboardBufferMax
  behind : ∀ i, keyboardBufferMax ≤ i → s.keyBuffer.buffer i = 0

namespace KeysHeld

variable {xs : List UInt8}

theorem indices (h : KeysHeld xs s) : s.keyBuffer.front < keyboardBufferMax ∧ s.keyBuffer.end < keyboardBufferMax := by
  have hfront := h.holds.front_lt
  have hend := h.holds.tail_lt
  rw [h.size] at hfront hend
  exact ⟨hfront, hend⟩

theorem isFull_iff (h : KeysHeld xs s) : s.keyBuffer.isFull ↔ xs.length = keyboardBufferMax - 1 := by
  have hmax : keyboardBufferMax = 500 := rfl
  rw [KeyboardBuffer.isFull, h.holds.full_iff, h.size]
  omega

/-- A full buffer drops the character. -/
theorem writeKeyBuffer_full (h : KeysHeld xs s) (hfull : xs.length = keyboardBufferMax - 1) (ch : UInt8) :
    writeKeyBuffer ch s = s := if_pos (h.isFull_iff.mpr hfull)

theorem writeKeyBuffer (h : KeysHeld xs s) (hroom : xs.length < keyboardBufferMax - 1) (ch : UInt8) :
    KeysHeld (xs ++ [ch]) (ArmOs.writeKeyBuffer ch s) := by
  have hfull : ¬s.keyBuffer.isFull := fun hf => Nat.ne_of_lt hroom (h.isFull_iff.mp hf)
  have hlt : xs.length + 1 < s.keyBuffer.size := by
    rw [h.size]
    omega
  have hwrite : (ArmOs.writeKeyBuffer ch s).keyBuffer = { s.keyBuffer with
      buffer := Function.update s.keyBuffer.buffer s.keyBuffer.end ch
      «end» := (s.keyBuffer.end + 1) % s.keyBuffer.size } := congrArg Kernel.keyBuffer (if_neg hfull)
  refine ⟨?_, ?_, fun i hi => ?_⟩
  · rw [hwrite]
    exact h.holds.push hlt ch
  · rw [hwrite]
    exact h.size
  · rw [hwrite]
    have hne : i ≠ s.keyBuffer.end := (h.indices.2.trans_le hi).ne'
    exact (Function.update_of_ne hne ..).trans (h.behind i hi)

theorem readKeyBuffer {x : UInt8} (h : KeysHeld (x :: xs) s) (tf : Nat) :
    ∃ t, ArmOs.readKeyBuffer tf s = .ok (some x, t) ∧ KeysHeld xs t := by
  have hne : s.keyBuffer.front ≠ s.keyBuffer.end := fun he => by cases h.holds.front_eq_iff.mp he
  obtain ⟨hget, hpop⟩ := h.holds.pop
  refine ⟨(takeKey s.keyBuffer.front s).2, ?_, ⟨hpop, h.size, h.behind⟩⟩
  rw [ArmOs.readKeyBuffer, if_neg hne, takeKey, hget]
  rfl

theorem perform (h : KeysHeld xs s) (tf : Nat) (o : KeyOp) (hpre : o.Pre xs) :
    ∃ t, o.perform tf s = .ok ((o.spec xs).1, t) ∧ KeysHeld (o.spec xs).2 t := by
  cases o with
  | writeKeyBuffer ch =>
      refine ⟨ArmOs.writeKeyBuffer ch s, rfl, ?_⟩
      have hlen := h.holds.length_lt
      rw [h.size] at hlen
      rw [KeyOp.spec]
      by_cases hroom : xs.length < keyboardBufferMax - 1
      · rw [if_pos hroom]
        exact h.writeKeyBuffer hroom ch
      · rw [if_neg hroom, h.writeKeyBuffer_full (by omega)]
        exact h
  | readKeyBuffer =>
      cases xs with
      | nil => exact absurd rfl hpre
      | cons x xs => exact h.readKeyBuffer tf

end KeysHeld

/-- Any writes, and reads of a buffer that is not empty, from the initial buffer on: they return what they return on the
queue, the buffer holds the queue, and both indices stay in the array. -/
theorem keyRing_refines {tf : Nat} {os : List KeyOp} (hinit : s.keyBuffer = .initial)
    (hos : Allowed KeyOp.Pre KeyOp.spec [] os) :
    ∃ t xs, performOps (KeyOp.perform tf) s os = .ok ((specOps KeyOp.spec [] os).1, t) ∧
      xs = (specOps KeyOp.spec [] os).2 ∧ xs.length ≤ keyboardBufferMax - 1 ∧ t.keyBuffer.Holds xs ∧
      (xs.length = keyboardBufferMax - 1 → ∀ ch, writeKeyBuffer ch t = t) ∧
      t.keyBuffer.front < keyboardBufferMax ∧ t.keyBuffer.end < keyboardBufferMax ∧
      ∀ i, keyboardBufferMax ≤ i → t.keyBuffer.buffer i = 0 := by
  have hstart : KeysHeld [] s := by
    refine ⟨?_, by rw [hinit]; rfl, fun i _ => by rw [hinit]; rfl⟩
    rw [hinit]
    exact IsRing.empty _ (by decide)
  have hstep : ∀ xs s o, KeysHeld xs s → KeyOp.Pre xs o →
      ∃ t, KeyOp.perform tf s o = .ok ((KeyOp.spec xs o).1, t) ∧ KeysHeld (KeyOp.spec xs o).2 t :=
    fun xs s o h hpre => h.perform tf o hpre
  obtain ⟨t, hrun, ht⟩ := performOps_refines hstep hstart hos
  have hlen := ht.holds.length_lt
  rw [ht.size] at hlen
  exact ⟨t, _, hrun, rfl, by omega, ht.holds, ht.writeKeyBuffer_full, ht.indices.1, ht.indices.2, ht.behind⟩

theorem keyRing_refines_two : ∃ s t, performOps (KeyOp.perform 0) s
    [.writeKeyBuffer 97, .writeKeyBuffer 98, .readKeyBuffer, .writeKeyBuffer 99] = .ok ([none, none, some 97, none], t) ∧
    t.keyBuffer.Holds [98, 99] := by
  have hos : Allowed KeyOp.Pre KeyOp.spec []
      [.writeKeyBuffer 97, .writeKeyBuffer 98, .readKeyBuffer, .writeKeyBuffer 99] := by
    simp [Allowed, KeyOp.Pre, KeyOp.spec, keyboardBufferMax]
  have hinit : (Kernel.reset smallLayout fun _ => 0).keyBuffer = .initial := rfl
  obtain ⟨t, xs, hrun, hxs, -, hholds, -⟩ := @keyRing_refines _ 0 _ hinit hos
  refine ⟨_, t, hrun, ?_⟩
  rw [hxs] at hholds
  exact hholds

end ArmOs
