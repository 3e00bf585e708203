import Offside.State
import Offside.TokenKind

/-!
This module contains the forms that token kinds, delimiters, margins and states have as data that
describes itself. Reading accepts no numbers but whole ones that are in range, and no margins but
those of an `Indentation`.
-/

namespace Offside

inductive Datum where
  | null
  | bool (value : Bool)
  | int (value : Int)
  | real (digits : Int) (places : Nat)
  | text (value : String)
  | array (items : List Datum)
  | object (fields : List (String × Datum))
  deriving Inhabited

namespace Datum

inductive Error where
  | mismatch
  | refused (fault : Fault)
  deriving DecidableEq

def Error.message? : Error → Option String
  | mismatch => none
  | refused fault => some fault.message

def toNat (bound : Nat) : Datum → Except Error Nat
  | int value => if 0 ≤ value ∧ value < bound then .ok value.toNat else .error .mismatch
  | _ => .error .mismatch

def toItems : Datum → Except Error (List Datum)
  | array items => .ok items
  | _ => .error .mismatch

theorem toNat_int {bound value : Nat} (h : value < bound) :
    toNat bound (int value) = .ok value := by
  rw [toNat, if_pos (by omega)]
  rfl

end Datum

namespace TokenKind

def label : TokenKind → String
  | newline => "Newline"
  | indent => "Indent"
  | dedent => "Dedent"
  | stringStart => "StringStart"
  | stringContent => "StringContent"
  | stringEnd => "StringEnd"

def ofLabel (label : String) : Except Datum.Error TokenKind :=
  match all.find? fun kind => kind.label == label with
  | some kind => .ok kind
  | none => .error .mismatch

def toDatum (kind : TokenKind) : Datum :=
  .text kind.label

def ofDatum : Datum → Except Datum.Error TokenKind
  | .text label => ofLabel label
  | .object [(label, .null)] => ofLabel label
  | _ => .error .mismatch

@[simp]
theorem ofDatum_toDatum (kind : TokenKind) : ofDatum kind.toDatum = .ok kind := by
  cases kind <;> rfl

end TokenKind

namespace Delimiter

def toDatum (delimiter : Delimiter) : Datum :=
  .int delimiter.bits.toNat

def ofDatum (datum : Datum) : Except Datum.Error Delimiter := do
  return ⟨.ofNat (← datum.toNat 256)⟩

def arrayToDatum (delimiters : Array Delimiter) : Datum :=
  .array (delimiters.toList.map toDatum)

def arrayOfDatum (datum : Datum) : Except Datum.Error (Array Delimiter) := do
  return (← (← datum.toItems).mapM ofDatum).toArray

@[simp]
theorem ofDatum_toDatum (delimiter : Delimiter) : ofDatum delimiter.toDatum = .ok delimiter := by
  rw [ofDatum, toDatum, Datum.toNat_int delimiter.bits.toNat_lt]
  simp [bind, Except.bind, pure, Except.pure]

end Delimiter

namespace Indentation

def toDatum (indents : Indentation) : Datum :=
  .array (indents.toList.map fun level => .int level.toNat)

def ofDatum (datum : Datum) : Except Datum.Error Indentation := do
  let levels ← (← datum.toItems).mapM (Datum.toNat UInt32.size)
  (ofList? (levels.map .ofNat)).mapError .refused

end Indentation

namespace State

def toDatum (state : State) : Datum :=
  .object [("indents", state.indents.toDatum),
    ("delimiters", Delimiter.arrayToDatum state.delimiters)]

/--
The fields of an object are read in the order of their names, other names are ignored and a missing
field is noticed last. An array has to hold the margins, the delimiters and nothing else.
-/
def ofDatum : Datum → Except Datum.Error State
  | .object fields => do
    let delimiters? ← (fields.lookup "delimiters").mapM Delimiter.arrayOfDatum
    let indents? ← (fields.lookup "indents").mapM Indentation.ofDatum
    match indents?, delimiters? with
    | some indents, some delimiters => return { indents, delimiters }
    | _, _ => throw .mismatch
  | .array (indents :: rest) => do
    let indents ← Indentation.ofDatum indents
    match rest with
    | [] => throw .mismatch
    | delimiters :: rest =>
      let delimiters ← Delimiter.arrayOfDatum delimiters
      if rest.isEmpty then return { indents, delimiters } else throw .mismatch
  | _ => .error .mismatch

end State

end Offside
