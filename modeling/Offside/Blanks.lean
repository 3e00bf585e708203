import Offside.Walk

/-!
This module contains the way over what separates tokens: blanks, line breaks, comments and line
breaks that a backslash cancels. On the way the indentation of the last line is measured.
-/

namespace Offside

structure Blanks where
  crossedLine : Bool := false
  width : UInt32 := 0
  comment? : Option UInt32 := none
  deriving DecidableEq

namespace Blanks

def widen (blanks : Blanks) (columns : UInt32) : Blanks :=
  -- A line can be indented further than 32 bits can tell
  { blanks with width := .ofNat (min (blanks.width.toNat + columns.toNat) (UInt32.size - 1)) }

def restart (blanks : Blanks) : Blanks :=
  { blanks with width := 0 }

def crossLine (blanks : Blanks) : Blanks :=
  { blanks with crossedLine := true, width := 0 }

def comment (blanks : Blanks) : Blanks :=
  { blanks with comment? := blanks.comment?.or (some blanks.width) }

def isContinuation (char : Char) : Bool :=
  char ∈ [' ', '\t', '\n', '\x0b', '\x0c', '\r']

def pass? (blanks : Blanks) (tabWidth : UInt32) : Char → Option Blanks
  | ' ' => some (blanks.widen 1)
  | '\t' => some (blanks.widen tabWidth)
  | '\n' => some blanks.crossLine
  | '\r' | '\x0c' => some blanks.restart
  | _ => none

/--
Pass everything up to the next token and answer what comes from there on. A backslash that does not
continue the line is an obstacle, and the end of the source counts as the end of a line.
-/
def skip (tabWidth : UInt32) : (inComment : Bool) → Blanks → List Char →
    Walk (Option (Blanks × List Char))
  | false, blanks, [] => { value := some (blanks.crossLine, []) }
  | true, blanks, [] => { value := some (blanks.crossLine, []), moves := [.skip] }
  | true, blanks, char :: chars =>
    if char = '\n' then
      (skip tabWidth false blanks.restart chars).after [.skip]
    else
      (skip tabWidth true blanks chars).after [.skip]
  | false, blanks, char :: chars =>
    if char = '#' then
      (skip tabWidth true blanks.comment chars).after [.skip]
    else if char = '\\' then
      match chars with
      | '\r' :: '\n' :: rest => (skip tabWidth false blanks rest).after [.skip, .skip, .skip]
      | space :: rest =>
        if isContinuation space then
          (skip tabWidth false blanks rest).after [.skip, .skip]
        else
          { value := none, moves := [.skip] }
      | [] => { value := none, moves := [.skip] }
    else
      match blanks.pass? tabWidth char with
      | some blanks => (skip tabWidth false blanks chars).after [.skip]
      | none => { value := some (blanks, char :: chars) }

end Blanks

end Offside
