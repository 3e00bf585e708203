import Offside.Blanks
import Offside.Literal.Start
import Offside.TokenSet

/-!
This module contains the scan outside of string literals: the lines and their indentation decide
which blocks start and end, and after the blanks a literal may start.
-/

namespace Offside

namespace Layout

/--
What the end of a line means within a block at `top`. A comment that is indented like the block
keeps the block open until there is code on a line.
-/
def line? (top : UInt32) (valid : TokenSet) (blanks : Blanks) : Option Found :=
  if .indent ∈ valid ∧ top < blanks.width then
    some (.indent blanks.width)
  else if .dedent ∈ valid ∧ blanks.width < top ∧ blanks.comment?.all (· < top) then
    some .dedent
  else if .newline ∈ valid then
    some .newline
  else
    none

def scan (tabWidth top : UInt32) (valid : TokenSet) (chars : List Char) : Walk (Option Found) :=
  let walk := Blanks.skip tabWidth false {} chars
  let moves := .mark :: walk.moves
  match walk.value with
  | none => { value := none, moves }
  | some (blanks, rest) =>
    match if blanks.crossedLine then line? top valid blanks else none with
    | some found => { value := some found, moves }
    | none =>
      if blanks.comment?.isNone ∧ .stringStart ∈ valid then
        (Literal.scanStart rest).after moves
      else
        { value := none, moves }

end Layout

end Offside
