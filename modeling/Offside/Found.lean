import Offside.State
import Offside.TokenKind

/-!
This module contains what a scan can find: a kind of token together with what it says about the
blocks and the literals that are open from then on.
-/

namespace Offside

inductive Found where
  | newline
  | indent (level : UInt32)
  | dedent
  | stringStart (delimiter : Delimiter)
  | stringContent
  | stringEnd
  deriving DecidableEq

def Found.kind : Found → TokenKind
  | newline => .newline
  | indent _ => .indent
  | dedent => .dedent
  | stringStart _ => .stringStart
  | stringContent => .stringContent
  | stringEnd => .stringEnd

def State.apply (state : State) : Found → State
  -- What a scan has not found there, such as a block that is not deeper, changes nothing
  | .indent level => { state with indents := (state.indents.push? level).getD state.indents }
  | .dedent => { state with indents := (state.indents.pop?.map (·.2)).getD state.indents }
  | .stringStart delimiter => state.pushDelimiter delimiter
  | .stringEnd => state.popDelimiter
  | .newline | .stringContent => state

end Offside
