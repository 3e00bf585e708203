/-!
This module contains what a scan needs of the place that it reads from: the characters ahead, and
the three moves by which the reader follows the scan through them.
-/

namespace Offside

/--
Pass a character in front of the token, pass a character of the token, or let the token end here.
-/
inductive Move where
  | skip
  | consume
  | mark
  deriving DecidableEq

class Reader (ρ : Type) where
  ahead : ρ → List Char
  move : ρ → Move → ρ

class LawfulReader (ρ : Type) [Reader ρ] : Prop where
  ahead_skip (reader : ρ) :
    Reader.ahead (Reader.move reader .skip) = (Reader.ahead reader).tail
  ahead_consume (reader : ρ) :
    Reader.ahead (Reader.move reader .consume) = (Reader.ahead reader).tail
  ahead_mark (reader : ρ) :
    Reader.ahead (Reader.move reader .mark) = Reader.ahead reader

namespace Reader

variable {ρ : Type} [Reader ρ]

def follow (reader : ρ) (moves : List Move) : ρ :=
  moves.foldl move reader

@[simp]
theorem follow_nil (reader : ρ) : follow reader [] = reader := rfl

@[simp]
theorem follow_cons (reader : ρ) (first : Move) (moves : List Move) :
    follow reader (first :: moves) = follow (move reader first) moves := rfl

@[simp]
theorem follow_append (reader : ρ) (lhs rhs : List Move) :
    follow reader (lhs ++ rhs) = follow (follow reader lhs) rhs := by
  apply List.foldl_append

end Reader

def Move.passed (moves : List Move) : Nat :=
  moves.countP (· != .mark)

theorem Reader.ahead_follow {ρ : Type} [Reader ρ] [LawfulReader ρ] (reader : ρ)
    (moves : List Move) :
    ahead (follow reader moves) = (ahead reader).drop (Move.passed moves) := by
  induction moves generalizing reader with
  | nil => rfl
  | cons first moves ih =>
    rw [follow_cons, ih]
    cases first with
    | skip => simp [LawfulReader.ahead_skip, Move.passed]
    | consume => simp [LawfulReader.ahead_consume, Move.passed]
    | mark => simp [LawfulReader.ahead_mark, Move.passed]

end Offside
