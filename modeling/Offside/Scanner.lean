import Offside.Layout
import Offside.Literal.Content
import Offside.Reader.Bytes
import Offside.State.Decode
import Offside.State.Write

/-!
This module contains scanners, which find one token at a time and keep the state in between. A
scanner can be saved after any token and another one can go on from there.
-/

namespace Offside

/--
The scan of the characters ahead. Within a literal a grammar accepts text but no blocks, so that the
accepted kinds tell whether the innermost open literal is to be read on.
-/
def State.scan (state : State) (tabWidth : UInt32) (valid : TokenSet) (chars : List Char) :
    Walk (Option Found) :=
  match if .stringContent ∈ valid ∧ .indent ∉ valid then state.delimiter? else none with
  | some delimiter => Literal.scanContent delimiter chars
  | none => Layout.scan tabWidth state.indents.top valid chars

def State.malformed? (state : State) : Option Delimiter :=
  state.delimiters.find? fun delimiter => ¬ delimiter.WellFormed

structure Options where
  tabWidth : UInt32 := 8
  capacity : Nat := 1024
  checked : Bool := false
  deriving DecidableEq

structure Scanner where
  options : Options := {}
  state : State := {}
  deriving DecidableEq

namespace Scanner

structure Violation where
  delimiter : Delimiter
  deriving DecidableEq

def Violation.message (violation : Violation) : String :=
  s!"malformed delimiter Delimiter({violation.delimiter.bits})"

def check (scanner : Scanner) : Except Violation Unit :=
  match scanner.state.malformed? with
  | some delimiter => .error { delimiter }
  | none => .ok ()

structure Scanned (ρ : Type) where
  outcome : Except Violation (Option TokenKind)
  scanner : Scanner
  reader : ρ

def scan {ρ : Type} [Reader ρ] (scanner : Scanner) (reader : ρ) (valid : TokenSet) :
    Logged (Scanned ρ) :=
  let walk := scanner.state.scan scanner.options.tabWidth valid (Reader.ahead reader)
  let kind? := walk.value.map Found.kind
  let state := walk.value.elim scanner.state scanner.state.apply
  let scanner := { scanner with state }
  { value :=
      { outcome := if scanner.options.checked then scanner.check.map fun _ => kind? else .ok kind?
        scanner
        reader := Reader.follow reader walk.moves }
    events := walk.events ++ [kind?.elim .declined .scanned] }

def scanAt (scanner : Scanner) (source : String) (offset : Nat) (valid : TokenSet) :
    Logged (Except Violation (Option Token) × Scanner) := do
  let scanned ← scanner.scan (ByteReader.ofString source offset) valid
  return (scanned.outcome.map (·.map scanned.reader.token), scanned.scanner)

def withState (scanner : Scanner) (state : State) : Scanner :=
  { scanner with state }

def reset (scanner : Scanner) : Scanner :=
  scanner.withState {}

def save (scanner : Scanner) : Logged (List UInt8) :=
  scanner.state.save scanner.options.capacity

def saveInto (scanner : Scanner) (buffer : Array UInt8) : Logged (Nat × Array UInt8) :=
  scanner.state.saveInto buffer scanner.options.capacity

def restore (scanner : Scanner) (bytes : List UInt8) : Logged (Except Fault Scanner) := do
  return (← State.load bytes scanner.options.capacity).map scanner.withState

end Scanner

end Offside
