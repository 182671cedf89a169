import ArmOs.Kernel.Types

/-!
# The keyboard buffer (`keyboard.c`)

`read_key_buffer` is in `ArmOs.Kernel.Process`, because it sleeps.
-/

namespace ArmOs

def KeyboardBuffer.initial : KeyboardBuffer := ⟨fun _ => 0, 0, 0, keyboardBufferMax⟩

/-- Does `write_key_buffer` drop the character? -/
def KeyboardBuffer.isFull (b : KeyboardBuffer) : Prop := (b.end + 1) % b.size = b.front

instance : DecidablePred KeyboardBuffer.isFull :=
  fun b => inferInstanceAs (Decidable ((b.end + 1) % b.size = b.front))

def writeKeyBuffer (ch : UInt8) (s : Kernel) : Kernel :=
  let b := s.keyBuffer
  if b.isFull then
    s
  else
    { s with
      keyBuffer := { b with buffer := Function.update b.buffer b.end ch, «end» := (b.end + 1) % b.size }
      trace := s.trace ++ [.keyIn ch] }

/-- The end of `read_key_buffer`, with the read index taken at its beginning. -/
def takeKey (front : Nat) (s : Kernel) : UInt8 × Kernel :=
  let b := s.keyBuffer
  let ch := b.buffer front
  (ch, { s with
         keyBuffer := { b with front := (b.front + 1) % b.size }
         trace := s.trace ++ [.keyOut ch] })

end ArmOs
