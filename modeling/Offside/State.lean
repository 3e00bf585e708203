import Offside.Delimiter
import Offside.Indentation

/-!
This module contains the state of a scan: everything that a scan of one token leaves behind for the
scan of the next one.
-/

namespace Offside

@[ext]
structure State where
  indents : Indentation := .base
  delimiters : Array Delimiter := #[]
  deriving DecidableEq

namespace State

def isInitial (state : State) : Bool :=
  state.indents.depth == 0 && state.delimiters.isEmpty

theorem isInitial_iff {state : State} : state.isInitial = true ↔ state = {} := by
  have hlist := state.indents.toList_eq_cons
  have hlength := state.indents.length_blocks
  rw [isInitial, Bool.and_eq_true, beq_iff_eq, Array.isEmpty_iff, State.ext_iff,
    ← Indentation.toList_inj, ← hlength, List.length_eq_zero_iff, hlist]
  simp [Indentation.toList, Indentation.base]

def delimiter? (state : State) : Option Delimiter :=
  state.delimiters.back?

def pushDelimiter (state : State) (delimiter : Delimiter) : State :=
  { state with delimiters := state.delimiters.push delimiter }

def popDelimiter (state : State) : State :=
  { state with delimiters := state.delimiters.pop }

end State

end Offside
