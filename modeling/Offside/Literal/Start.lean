import Offside.Found
import Offside.Walk

/-!
This module contains the recognition of the start of a string literal: letters that say how to read
the literal, then one or three quotes.
-/

namespace Offside

namespace Literal

def isLetter (char : Char) : Bool :=
  (Delimiter.letterFlag? char).isSome

def ofLetters (letters : List Char) : Delimiter :=
  letters.foldl (fun delimiter letter => (delimiter.withLetter? letter).getD delimiter) {}

/--
Two quotes are the start and the end of an empty literal. The second one is looked at, but only the
first one belongs to the start.
-/
def scanStart (chars : List Char) : Walk (Option Found) :=
  let letters := chars.takeWhile isLetter
  let moves := letters.map fun _ => Move.consume
  match chars.dropWhile isLetter with
  | [] => { value := none, moves }
  | quote :: rest =>
    match (ofLetters letters).withQuote? quote with
    | none =>
      let events := if letters.isEmpty then [] else [.lettersWithoutQuote]
      { value := none, moves, events }
    | some delimiter =>
      let moves := moves ++ [.consume, .mark]
      match (rest.takeWhile (· = quote)).length with
      | 0 => { value := some (.stringStart delimiter), moves }
      | 1 => { value := some (.stringStart delimiter), moves := moves ++ [.consume] }
      | _ + 2 =>
        { value := some (.stringStart (delimiter.set Delimiter.triple))
          moves := moves ++ [.consume, .consume, .mark] }

end Literal

end Offside
