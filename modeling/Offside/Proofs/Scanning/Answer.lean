import Offside.Proofs.Scanning.Change

/-!
This module contains the answers that a scan of bytes can give, told by the characters that were
ahead of it.
-/

namespace Offside

namespace Utf8

theorem offset_le {pieces : List Piece} {fewer count : Nat} (h : fewer ≤ count) :
    offset pieces fewer ≤ offset pieces count := by
  obtain ⟨more, rfl⟩ := Nat.exists_eq_add_of_le h
  rw [offset, offset, List.take_add, size_append]
  apply Nat.le_add_right

theorem min_offset (pieces : List Piece) (lhs rhs : Nat) :
    min (offset pieces lhs) (offset pieces rhs) = offset pieces (min lhs rhs) := by
  cases Nat.le_total lhs rhs with
  | inl h => rw [Nat.min_eq_left h, Nat.min_eq_left (offset_le h)]
  | inr h => rw [Nat.min_eq_right h, Nat.min_eq_right (offset_le h)]

end Utf8

def ByteReader.offsetBehind (reader : ByteReader) (count : Nat) : Nat :=
  reader.position + Utf8.offset (Utf8.pieces reader.rest) count

/--
What a scan comes to when it finds a token: its kind, what it changes, and the characters ahead that
it covers, from the one with index `start` up to but not including the one with index `stop`.
-/
structure Answer where
  kind : TokenKind
  change : Change
  start : Nat
  stop : Nat

inductive Walk.Yields (state : State) (chars : List Char) (walk : Walk (Option Found)) :
    Option Answer → Prop
  | declined (h : walk.value = none) : Yields state chars walk none
  | found {found : Found} {start stop : Nat} (h : walk.value = some found)
    (hstop : (Reader.follow { rest := chars : Track } walk.moves).mark? = some stop)
    (hstart : min (Reader.follow { rest := chars : Track } walk.moves).start stop = start) :
    Yields state chars walk (some ⟨found.kind, state.change found, start, stop⟩)

namespace Scanner

structure Gives (scanner : Scanner) (reader : ByteReader) (valid : TokenSet)
    (answer? : Option Answer) : Prop where
  told : (scanner.scan reader valid).events.getLast?
    = some ((answer?.map Answer.kind).elim .declined .scanned)
  outcome : (scanner.scan reader valid).value.outcome
    = (scanner.scan reader valid).value.scanner.report (answer?.map Answer.kind)
  change : (answer?.elim .keep Answer.change).Between scanner.state
    (scanner.scan reader valid).value.scanner.state
  token : ∀ answer ∈ answer?, (scanner.scan reader valid).value.reader.token answer.kind
    = ⟨answer.kind, reader.offsetBehind answer.start, reader.offsetBehind answer.stop⟩

variable {scanner : Scanner} {valid : TokenSet}

theorem gives_of_yields {bytes : List UInt8} {origin : Nat} {answer? : Option Answer}
    (h : (scanner.walk valid (Utf8.chars bytes)).Yields scanner.state (Utf8.chars bytes) answer?) :
    scanner.Gives ⟨bytes, origin, origin, none⟩ valid answer? := by
  have hahead : Reader.ahead (⟨bytes, origin, origin, none⟩ : ByteReader) = Utf8.chars bytes := rfl
  cases h with
  | declined h =>
    exact
      {
        told := by
          rw [getLast?_events_scan, hahead, h]
          rfl
        outcome := by
          rw [outcome_scan_eq_report, hahead, h]
          rfl
        change := by
          rw [state_scan, hahead, h]
          rfl
        token := by simp
      }
  | @found found start stop h hstop hstart =>
    exact
      {
        told := by
          rw [getLast?_events_scan, hahead, h]
          rfl
        outcome := by
          rw [outcome_scan_eq_report, hahead, h]
          rfl
        change := by
          rw [state_scan, hahead, h]
          apply (State.finds_of_scan h).between
        token := by
          intro answer hmem
          obtain rfl := Option.some.inj hmem
          have htracks := (ByteReader.tracks_start bytes origin).follow
            (scanner.walk valid (Utf8.chars bytes)).moves
          have hmark := htracks.mark?
          rw [hstop, Option.map_some] at hmark
          rw [reader_scan, hahead, ByteReader.token, hmark, Option.getD_some, htracks.start,
            Nat.add_min_add_left, Utf8.min_offset, hstart]
          rfl
      }

theorem exists_yields (scanner : Scanner) (valid : TokenSet) (chars : List Char) :
    ∃ answer?, (scanner.walk valid chars).Yields scanner.state chars answer? := by
  cases hvalue : (scanner.walk valid chars).value with
  | none => exact ⟨none, .declined hvalue⟩
  | some found =>
    have hmark := Track.mark?_follow_ne_none (State.finds_of_scan hvalue).mark_mem { rest := chars }
    obtain ⟨stop, hstop⟩ := Option.ne_none_iff_exists'.1 hmark
    exact ⟨_, .found hvalue hstop rfl⟩

theorem exists_gives (scanner : Scanner) (source : List UInt8) (offset : Nat) (valid : TokenSet) :
    ∃ answer?, scanner.Gives (ByteReader.ofBytes source offset) valid answer? := by
  obtain ⟨answer?, hyields⟩ := exists_yields scanner valid
    (Reader.ahead (ByteReader.ofBytes source offset))
  exact ⟨answer?, gives_of_yields hyields⟩

end Scanner

end Offside
