/-!
This module contains the kinds of token that a grammar cannot tell from single characters.
-/

namespace Offside

inductive TokenKind where
  | newline
  | indent
  | dedent
  | stringStart
  | stringContent
  | stringEnd
  deriving DecidableEq

namespace TokenKind

def all : List TokenKind :=
  [.newline, .indent, .dedent, .stringStart, .stringContent, .stringEnd]

def symbol : TokenKind → UInt16
  | newline => 0
  | indent => 1
  | dedent => 2
  | stringStart => 3
  | stringContent => 4
  | stringEnd => 5

def ofSymbol? (symbol : UInt16) : Option TokenKind :=
  all[symbol.toNat]?

def name : TokenKind → String
  | newline => "NEWLINE"
  | indent => "INDENT"
  | dedent => "DEDENT"
  | stringStart => "STRING_START"
  | stringContent => "STRING_CONTENT"
  | stringEnd => "STRING_END"

theorem mem_all (kind : TokenKind) : kind ∈ all := by
  cases kind <;> decide

@[simp]
theorem ofSymbol?_symbol (kind : TokenKind) : ofSymbol? kind.symbol = some kind := by
  cases kind <;> rfl

end TokenKind

end Offside
