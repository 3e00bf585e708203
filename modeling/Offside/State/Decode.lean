import Offside.Event
import Offside.State
import Offside.Varint

/-!
This module contains the way in which a saved state is read. Damaged bytes are refused with the
first fault that they have.
-/

namespace Offside

namespace State

def readDelimiters (index : Nat) : List UInt8 → Except Fault (List Delimiter)
  | [] => .ok []
  | bits :: rest =>
    match Delimiter.ofBits? bits with
    | some delimiter => (readDelimiters (index + 1) rest).map (delimiter :: ·)
    | none => .error (.invalidDelimiter index bits)

def readBlocks (indents : Indentation) : List UInt8 → Except Fault Indentation
  | [] => .ok indents
  | byte :: bytes =>
    match h : Varint.decode? (byte :: bytes) with
    | none => .error (.malformedLevel (indents.depth + 1))
    | some (level, rest) =>
      match indents.push? level with
      | some indents => readBlocks indents rest
      | none => .error (.nonIncreasing (indents.depth + 1) level)
  termination_by bytes => bytes.length
  decreasing_by exact Varint.length_lt_of_decode?_eq h

def decode (bytes : List UInt8) (capacity : Nat) : Except Fault State :=
  match bytes with
  | [] => .ok {}
  | count :: rest =>
    if capacity < bytes.length then
      .error (.oversized bytes.length capacity)
    else if rest.length < count.toNat then
      .error (.truncatedDelimiters count.toNat rest.length)
    else do
      let delimiters ← readDelimiters 0 (rest.take count.toNat)
      let indents ← readBlocks .base (rest.drop count.toNat)
      return { indents, delimiters := delimiters.toArray }

def load (bytes : List UInt8) (capacity : Nat) : Logged (Except Fault State) := do
  let result := decode bytes capacity
  if let .ok state := result then
    unless bytes.isEmpty do
      .emit (.restored state.delimiters.size state.indents.depth)
  return result

end State

end Offside
