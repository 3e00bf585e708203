import Offside.State.Encode

/-!
This module contains the way in which a state is saved into a buffer that exists already. The bytes
of the buffer behind the saved state stay what they were.
-/

namespace Offside

namespace State

def overwrite (buffer : Array UInt8) (start : Nat) : List UInt8 → Array UInt8
  | [] => buffer
  | byte :: bytes => overwrite (buffer.setIfInBounds start byte) (start + 1) bytes

def writeLevels (buffer : Array UInt8) (start limit : Nat) : List UInt32 → Nat × Array UInt8
  | [] => (start, buffer)
  | level :: levels =>
    let bytes := Varint.encode level
    if start + bytes.length ≤ limit then
      writeLevels (overwrite buffer start bytes) (start + bytes.length) limit levels
    else
      (start, buffer)

def write (state : State) (buffer : Array UInt8) (limit : Nat) : Nat × Array UInt8 :=
  let limit := min buffer.size limit
  if limit = 0 then
    (0, buffer)
  else
    let count := min (min state.delimiters.size 255) (limit - 1)
    let flags := (state.delimiters.toList.take count).map Delimiter.bits
    let buffer := overwrite buffer 0 (.ofNat count :: flags)
    writeLevels buffer (1 + count) limit state.indents.blocks

def saveInto (state : State) (buffer : Array UInt8) (limit : Nat) :
    Logged (Nat × Array UInt8) where
  value := state.write buffer limit
  events := state.warnings (min buffer.size limit)

@[simp]
theorem size_overwrite (buffer : Array UInt8) (start : Nat) (bytes : List UInt8) :
    (overwrite buffer start bytes).size = buffer.size := by
  induction bytes generalizing buffer start with
  | nil => rfl
  | cons byte bytes ih => rw [overwrite, ih, Array.size_setIfInBounds]

end State

end Offside
