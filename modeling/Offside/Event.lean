import Offside.Fault
import Offside.TokenKind

/-!
This module contains the events that scanning and saving report and computations that report them.
-/

namespace Offside

inductive Event where
  | scanned (kind : TokenKind)
  | declined
  | lettersWithoutQuote
  | restored (delimiters blocks : Nat)
  | noRoom
  | delimitersTruncated (total written : Nat)
  | blocksTruncated (total written : Nat)
  | discarded (fault : Fault)
  deriving DecidableEq

namespace Event

def line : Event → String
  | scanned kind => s!"TRACE scanned token token={kind.name}"
  | declined => "TRACE declined"
  | lettersWithoutQuote => "TRACE string prefix without a quote"
  | restored delimiters blocks =>
    s!"DEBUG restored scanner state delimiters={delimiters} blocks={blocks}"
  | noRoom => "WARN no room to serialize scanner state"
  | delimitersTruncated total written =>
    s!"WARN delimiter stack truncated during serialization open={total} written={written}"
  | blocksTruncated total written =>
    s!"WARN indentation stack truncated during serialization blocks={total} written={written}"
  | discarded fault => s!"WARN discarding malformed scanner state error={fault.message}"

end Event

@[ext]
structure Logged (α : Type) where
  value : α
  events : List Event := []

namespace Logged

instance : Monad Logged where
  pure value := { value }
  bind logged f :=
    let next := f logged.value
    { value := next.value, events := logged.events ++ next.events }

@[simp]
theorem value_pure (value : α) : (pure value : Logged α).value = value := rfl

@[simp]
theorem value_bind (logged : Logged α) (f : α → Logged β) :
    (logged >>= f).value = (f logged.value).value := rfl

def emit (event : Event) : Logged Unit where
  value := ()
  events := [event]

end Logged

end Offside
