import Offside.TokenKind
import Offside.Utf8

/-!
This module contains tokens: what was recognised and which bytes of the source it covers.
-/

namespace Offside

structure Token where
  kind : TokenKind
  start : Nat
  stop : Nat
  deriving DecidableEq

namespace Token

def isEmpty (token : Token) : Bool :=
  token.start == token.stop

def text? (token : Token) (source : String) : Option String := do
  let chars ← Utf8.drop? token.start source.toList
  let chars ← Utf8.take? (token.stop - token.start) chars
  return String.ofList chars

end Token

end Offside
