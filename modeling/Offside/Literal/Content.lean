import Offside.Found
import Offside.Walk

/-!
This module contains the scan within a string literal. It finds the longest run of literal text, and
the closing quotes if there is no text in front of them. Interpolated expressions and escape
sequences end the text and are left to the grammar.
-/

namespace Offside

namespace Literal

def text? (hasText : Bool) : Option Found :=
  if hasText then some .stringContent else none

def namesChar (char : Char) : Bool :=
  char ∈ ['N', 'u', 'U']

/--
Read on in a literal that `quote` closes. There is a mark in front of everything that may be left to
the next scan.
-/
def scanText (delimiter : Delimiter) (quote : Char) : (hasText : Bool) → List Char →
    Walk (Option Found)
  | _, [] => { value := none }
  | hasText, char :: chars =>
    if char = '\x7b' ∧ delimiter.isFormat then
      match chars with
      | [] => { value := text? hasText, moves := [.mark, .consume] }
      | next :: rest =>
        if next = '\x7b' then
          (scanText delimiter quote true rest).after [.mark, .consume, .consume]
        else
          { value := text? hasText, moves := [.mark, .consume] }
    else if char = '\\' then
      if delimiter.isRaw then
        (scanText delimiter quote true chars).after [.consume]
      else if delimiter.isBytes then
        match chars with
        | [] => { value := text? hasText, moves := [.mark, .consume] }
        | next :: rest =>
          if namesChar next then
            (scanText delimiter quote true rest).after [.mark, .consume, .consume]
          else
            { value := text? hasText, moves := [.mark, .consume] }
      else
        { value := text? hasText, moves := [.mark] }
    else if char = quote then
      if delimiter.isTriple then
        match chars with
        | [] => { value := none, moves := [.mark, .consume] }
        | second :: rest =>
          if second = quote then
            match rest with
            | [] => { value := none, moves := [.mark, .consume, .consume] }
            | third :: more =>
              if third = quote then
                if hasText then
                  { value := some .stringContent, moves := [.mark, .consume, .consume] }
                else
                  { value := some .stringEnd
                    moves := [.mark, .consume, .consume, .consume, .mark] }
              else
                (scanText delimiter quote true (third :: more)).after [.mark, .consume, .consume]
          else
            (scanText delimiter quote true (second :: rest)).after [.mark, .consume]
      else if hasText then
        { value := some .stringContent, moves := [.mark] }
      else
        { value := some .stringEnd, moves := [.consume, .mark] }
    else if char = '\n' ∧ hasText ∧ ¬ delimiter.isTriple then
      { value := none }
    else
      (scanText delimiter quote true chars).after [.consume]

def scanContent (delimiter : Delimiter) (chars : List Char) : Walk (Option Found) :=
  match delimiter.quote? with
  | some quote => scanText delimiter quote.char false chars
  | none => { value := none }

end Literal

end Offside
