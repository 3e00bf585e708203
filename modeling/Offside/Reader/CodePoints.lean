import Offside.Reader
import Offside.TokenKind
import Offside.Utf8

/-!
This module contains readers of sources that a parser hands over one code point at a time. A parser
keeps the range of the token and the number of its kind next to its place in the source.
-/

namespace Offside

structure CodePointReader where
  rest : List Int32
  cursor : Nat
  start : Nat
  stop : Nat
  symbol : UInt16 := 65535
  deriving DecidableEq

namespace CodePointReader

def ofCodePoints (source : List Int32) (index : Nat) : CodePointReader :=
  let index := min index source.length
  { rest := source.drop index, cursor := index, start := index, stop := index }

def toChar (unit : Int32) : Char :=
  if 0 ≤ unit.toInt ∧ unit.toInt.toNat.isValidChar then
    .ofNat unit.toInt.toNat
  else
    Utf8.replacement

def consume (reader : CodePointReader) : CodePointReader :=
  match reader.rest with
  | [] => reader
  | _ :: rest => { reader with rest, cursor := reader.cursor + 1 }

def skip (reader : CodePointReader) : CodePointReader :=
  -- Even at the end the token starts anew
  let reader := reader.consume
  { reader with start := reader.cursor }

def mark (reader : CodePointReader) : CodePointReader :=
  { reader with stop := reader.cursor }

instance : Reader CodePointReader where
  ahead reader := reader.rest.map toChar
  move
    | reader, .skip => reader.skip
    | reader, .consume => reader.consume
    | reader, .mark => reader.mark

theorem ahead_consume (reader : CodePointReader) :
    Reader.ahead reader.consume = (Reader.ahead reader).tail := by
  simp only [consume, Reader.ahead]
  split
  . next h => rw [h, List.map_nil, List.tail_nil]
  . next h => rw [h, List.map_cons, List.tail_cons]

instance : LawfulReader CodePointReader where
  ahead_skip := ahead_consume
  ahead_consume := ahead_consume
  ahead_mark _ := rfl

end CodePointReader

end Offside
