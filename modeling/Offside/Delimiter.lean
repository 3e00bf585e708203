/-!
This module contains delimiters: what is known of one open string literal, packed into a byte of
flags. The byte is also what a saved state holds of the literal.
-/

namespace Offside

inductive Quote where
  | single
  | double
  | back
  deriving DecidableEq

namespace Quote

def all : List Quote :=
  [.single, .double, .back]

def char : Quote → Char
  | single => '\x27'
  | double => '\x22'
  | back => '\x60'

def ofChar? (char : Char) : Option Quote :=
  all.find? fun quote => quote.char == char

def flag : Quote → UInt8
  | single => 0x01
  | double => 0x02
  | back => 0x04

@[simp]
theorem ofChar?_char (quote : Quote) : ofChar? quote.char = some quote := by
  cases quote <;> rfl

theorem ofChar?_eq_some_iff {char : Char} {quote : Quote} :
    ofChar? char = some quote ↔ char = quote.char := by
  constructor
  . intro h
    have := List.find?_some h
    simp_all
  . rintro rfl
    simp

end Quote

@[ext]
structure Delimiter where
  bits : UInt8 := 0
  deriving DecidableEq

namespace Delimiter

-- A backslash is plain text.
def raw : UInt8 := 0x08

-- Expressions are interpolated.
def format : UInt8 := 0x10

-- There are three quotes on each side.
def triple : UInt8 := 0x20

-- The literal stands for bytes.
def bytes : UInt8 := 0x40

-- No literal has this bit.
def unused : UInt8 := 0x80

def has (delimiter : Delimiter) (flag : UInt8) : Bool :=
  delimiter.bits &&& flag != 0

def set (delimiter : Delimiter) (flag : UInt8) : Delimiter :=
  ⟨delimiter.bits ||| flag⟩

def isRaw (delimiter : Delimiter) : Bool :=
  delimiter.has raw

def isFormat (delimiter : Delimiter) : Bool :=
  delimiter.has format

def isTriple (delimiter : Delimiter) : Bool :=
  delimiter.has triple

def isBytes (delimiter : Delimiter) : Bool :=
  delimiter.has bytes

def quotes (delimiter : Delimiter) : List Quote :=
  Quote.all.filter fun quote => delimiter.has quote.flag

def quote? (delimiter : Delimiter) : Option Quote :=
  delimiter.quotes.head?

structure WellFormed (delimiter : Delimiter) : Prop where
  unused_eq_false : delimiter.has unused = false
  length_quotes : delimiter.quotes.length = 1

instance (delimiter : Delimiter) : Decidable delimiter.WellFormed :=
  decidable_of_iff (delimiter.has unused = false ∧ delimiter.quotes.length = 1)
    ⟨fun h => ⟨h.1, h.2⟩, fun h => ⟨h.1, h.2⟩⟩

def ofBits? (bits : UInt8) : Option Delimiter :=
  if WellFormed ⟨bits⟩ then some ⟨bits⟩ else none

theorem ofBits?_eq_some_iff {bits : UInt8} {delimiter : Delimiter} :
    ofBits? bits = some delimiter ↔ delimiter.bits = bits ∧ delimiter.WellFormed := by
  cases delimiter
  grind [ofBits?]

@[simp]
theorem ofBits?_bits {delimiter : Delimiter} (h : delimiter.WellFormed) :
    ofBits? delimiter.bits = some delimiter :=
  ofBits?_eq_some_iff.2 ⟨rfl, h⟩

theorem ofBits?_eq_none_iff {bits : UInt8} : ofBits? bits = none ↔ ¬ WellFormed ⟨bits⟩ := by
  grind [ofBits?]

def letterFlag? (letter : Char) : Option UInt8 :=
  match letter with
  | 'f' | 'F' => some format
  | 'r' | 'R' => some raw
  | 'b' | 'B' => some bytes
  | 'u' | 'U' => some 0
  | _ => none

def withLetter? (delimiter : Delimiter) (letter : Char) : Option Delimiter :=
  (letterFlag? letter).map delimiter.set

def withQuote? (delimiter : Delimiter) (char : Char) : Option Delimiter :=
  (Quote.ofChar? char).map fun quote => delimiter.set quote.flag

end Delimiter

end Offside
