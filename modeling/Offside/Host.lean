import Offside.Reader.CodePoints
import Offside.Scanner

/-!
This module contains the entry points for parsers that drive a scanner through plain numbers and
bytes: they create a scanner, let it scan, and keep its state in buffers of their own.
-/

namespace Offside

namespace Host

def bufferSize : Nat := 1024

def create : Scanner :=
  {}

def scan (scanner : Scanner) (reader : CodePointReader) (flags : List Bool) :
    Logged (Bool × Scanner × CodePointReader) := do
  let scanned ← scanner.scan reader (.ofFlags flags)
  match scanned.outcome with
  | .ok (some kind) =>
    return (true, scanned.scanner, { scanned.reader with symbol := kind.symbol })
  | _ => return (false, scanned.scanner, scanned.reader)

def serialize (scanner : Scanner) : Logged (List UInt8) := do
  let (length, buffer) ← scanner.saveInto (.replicate bufferSize 0)
  return buffer.toList.take length

def deserialize (scanner : Scanner) (buffer? : Option (List UInt8)) : Logged Scanner := do
  match ← scanner.restore (buffer?.getD []) with
  | .ok scanner => return scanner
  | .error fault =>
    Logged.emit (.discarded fault)
    return scanner.reset

end Host

end Offside
