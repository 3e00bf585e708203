import Offside.Event
import Offside.Reader

/-!
This module contains walks: what a part of a scan finds in the characters ahead together with the
moves that it makes through them.
-/

namespace Offside

structure Walk (α : Type) where
  value : α
  moves : List Move := []
  events : List Event := []

def Walk.after (walk : Walk α) (moves : List Move) : Walk α :=
  { walk with moves := moves ++ walk.moves }

@[simp]
theorem Walk.value_after (walk : Walk α) (moves : List Move) :
    (walk.after moves).value = walk.value := rfl

@[simp]
theorem Walk.moves_after (walk : Walk α) (moves : List Move) :
    (walk.after moves).moves = moves ++ walk.moves := rfl

end Offside
