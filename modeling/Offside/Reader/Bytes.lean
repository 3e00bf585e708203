import Offside.Reader
import Offside.Token

/-!
This module contains readers of sources that are held in memory as bytes. The bytes may be damaged.
-/

namespace Offside

structure ByteReader where
  rest : List UInt8
  position : Nat
  start : Nat
  mark? : Option Nat
  deriving DecidableEq

namespace ByteReader

def ofBytes (source : List UInt8) (offset : Nat) : ByteReader :=
  let offset := min offset source.length
  { rest := source.drop offset, position := offset, start := offset, mark? := none }

def ofString (source : String) (offset : Nat) : ByteReader :=
  ofBytes (Utf8.encode source.toList) offset

def lookahead? (reader : ByteReader) : Option Char :=
  match reader.rest with
  | [] => none
  | byte :: bytes => some (Utf8.decode byte bytes).char

def isAt (reader : ByteReader) (char : Char) : Bool :=
  reader.lookahead? == some char

def consume (reader : ByteReader) : ByteReader :=
  match reader.rest with
  | [] => reader
  | byte :: bytes =>
    let width := (Utf8.decode byte bytes).width
    { reader with rest := reader.rest.drop width, position := reader.position + width }

def skip (reader : ByteReader) : ByteReader :=
  match reader.rest with
  | [] => reader
  | _ :: _ =>
    let reader := reader.consume
    { reader with start := reader.position }

def mark (reader : ByteReader) : ByteReader :=
  { reader with mark? := some reader.position }

/--
The token that was read. It ends at the mark, or else at the current character, and a mark in front
of skipped characters leaves the token empty.
-/
def token (reader : ByteReader) (kind : TokenKind) : Token :=
  let stop := reader.mark?.getD reader.position
  { kind, start := min reader.start stop, stop }

instance : Reader ByteReader where
  ahead reader := Utf8.chars reader.rest
  move
    | reader, .skip => reader.skip
    | reader, .consume => reader.consume
    | reader, .mark => reader.mark

theorem lookahead?_eq (reader : ByteReader) :
    reader.lookahead? = (Reader.ahead reader).head? := by
  simp only [lookahead?, Reader.ahead]
  cases reader.rest with
  | nil => rfl
  | cons byte bytes => rw [Utf8.chars_cons, List.head?_cons]

theorem ahead_consume (reader : ByteReader) :
    Reader.ahead reader.consume = (Reader.ahead reader).tail := by
  simp only [consume, Reader.ahead]
  split
  . next h => rw [h, Utf8.chars_nil, List.tail_nil]
  . next h => rw [h, Utf8.chars_cons, List.tail_cons]

theorem rest_skip (reader : ByteReader) : reader.skip.rest = reader.consume.rest := by
  simp only [skip, consume]
  split <;> rfl

instance : LawfulReader ByteReader where
  ahead_skip reader := by
    rw [← ahead_consume]
    exact congrArg Utf8.chars reader.rest_skip
  ahead_consume := ahead_consume
  ahead_mark _ := rfl

end ByteReader

end Offside
