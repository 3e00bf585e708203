/-!
This module contains the reasons for which a saved state is refused.
-/

namespace Offside

inductive Fault where
  | oversized (length capacity : Nat)
  | truncatedDelimiters (declared available : Nat)
  | invalidDelimiter (index : Nat) (bits : UInt8)
  | malformedLevel (depth : Nat)
  | missingBase
  | nonIncreasing (depth : Nat) (level : UInt32)
  deriving DecidableEq

namespace Fault

def hexByte (byte : UInt8) : String :=
  .ofList [Nat.digitChar (byte.toNat / 16), Nat.digitChar (byte.toNat % 16)]

def message : Fault → String
  | oversized length capacity =>
    s!"state of {length} bytes exceeds the capacity of {capacity} bytes"
  | truncatedDelimiters declared available =>
    s!"state declares {declared} delimiters but only {available} bytes follow"
  | invalidDelimiter index bits =>
    s!"invalid delimiter flags 0x{hexByte bits} at position {index}"
  | malformedLevel depth =>
    s!"indentation level at depth {depth} is truncated or too large"
  | missingBase =>
    "indentation stack does not start at column 0"
  | nonIncreasing depth level =>
    s!"indentation level {level} at depth {depth} does not exceed the level below it"

end Fault

end Offside
