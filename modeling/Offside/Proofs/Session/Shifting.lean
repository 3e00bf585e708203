import Offside.Proofs.Scanning.Change
import Offside.Proofs.Scanning.Locality

/-!
This module contains the proof that a scan comes to the same wherever the characters that it looks at
stand: in another text, at another offset, and within other blocks and literals than the innermost
ones.
-/

namespace Offside

namespace Utf8

theorem take_inj {chars : List Char} {lhs rhs : Nat} (hlhs : lhs ≤ chars.length)
    (hrhs : rhs ≤ chars.length)
    (h : (encode (chars.take lhs)).length = (encode (chars.take rhs)).length) : lhs = rhs := by
  have hdrop : chars.drop lhs = chars.drop rhs := by
    have hrest := drop?_length_encode (chars.take lhs) (chars.drop lhs)
    have hother := drop?_length_encode (chars.take rhs) (chars.drop rhs)
    rw [List.take_append_drop] at hrest hother
    rw [h, hother, Option.some.injEq] at hrest
    exact hrest.symm
  have hlength := congrArg List.length hdrop
  rw [List.length_drop, List.length_drop] at hlength
  omega

end Utf8

namespace Track

structure Alike (lhs rhs : Track) : Prop where
  passed : rhs.passed = lhs.passed
  start : rhs.start = lhs.start
  mark? : rhs.mark? = lhs.mark?

theorem Alike.follow {moves : List Move} {lhs rhs : Track} (h : Alike lhs rhs)
    (hlhs : Move.passed moves ≤ lhs.rest.length) (hrhs : Move.passed moves ≤ rhs.rest.length) :
    Alike (Reader.follow lhs moves) (Reader.follow rhs moves) := by
  induction moves generalizing lhs rhs with
  | nil => exact h
  | cons next moves ih =>
    obtain ⟨hpassed, hstart, hmark⟩ := h
    rw [Reader.follow_cons, Reader.follow_cons]
    cases next with
    | mark =>
      rw [Move.passed_cons_mark] at hlhs hrhs
      exact ih ⟨hpassed, hstart, congrArg some hpassed⟩ hlhs hrhs
    | skip =>
      obtain ⟨_ | ⟨first, lhs⟩, _⟩ := lhs
      . simp at hlhs
      . obtain ⟨_ | ⟨second, rhs⟩, _⟩ := rhs
        . simp at hrhs
        . rw [Move.passed_cons_skip] at hlhs hrhs
          apply ih
          . exact ⟨congrArg (· + 1) hpassed, congrArg (· + 1) hpassed, hmark⟩
          . exact Nat.le_of_succ_le_succ hlhs
          . exact Nat.le_of_succ_le_succ hrhs
    | consume =>
      obtain ⟨_ | ⟨first, lhs⟩, _⟩ := lhs
      . simp at hlhs
      . obtain ⟨_ | ⟨second, rhs⟩, _⟩ := rhs
        . simp at hrhs
        . rw [Move.passed_cons_consume] at hlhs hrhs
          apply ih
          . exact ⟨congrArg (· + 1) hpassed, hstart, hmark⟩
          . exact Nat.le_of_succ_le_succ hlhs
          . exact Nat.le_of_succ_le_succ hrhs

end Track

/--
The first text is `bytes` bytes long and the other one is the same, or the two are the same up to and
including the character that stands behind so many bytes.
-/
inductive AgreeTo (bytes : Nat) (lhs rhs : List Char) : Prop
  | toEnd (hbytes : (Utf8.encode lhs).length = bytes) (heq : rhs = lhs)
  | within {count : Nat} (hbytes : (Utf8.encode (lhs.take count)).length = bytes)
    (hagree : Agree count lhs rhs)

structure Place where
  source : String
  offset : Nat
  before : List Char
  after : List Char
  toList_source : source.toList = before ++ after
  min_offset : min offset (Utf8.encode source.toList).length = (Utf8.encode before).length

namespace Place

variable {here there : Place}

def reader (place : Place) : ByteReader :=
  .ofString place.source place.offset

def origin (place : Place) : Nat :=
  (Utf8.encode place.before).length

def track (place : Place) : Track :=
  { rest := place.after }

theorem tracks_follow (place : Place) (moves : List Move) :
    ByteReader.Tracks (Utf8.pieces (Utf8.encode place.after)) place.origin
      (Reader.follow place.reader moves) (Reader.follow place.track moves) := by
  apply ByteReader.Tracks.follow
  apply ByteReader.tracks_ofString place.toList_source place.min_offset

theorem ahead_reader (place : Place) : Reader.ahead place.reader = place.after :=
  (place.tracks_follow []).rest.symm

theorem position_follow (place : Place) (moves : List Move) :
    (Reader.follow place.reader moves).position
      =
    place.origin +
      (Utf8.encode (place.after.take (Reader.follow place.track moves).passed)).length := by
  rw [(place.tracks_follow moves).position, Utf8.offset_pieces_encode]

theorem passed_eq {place : Place} {moves : List Move} {bytes count : Nat}
    (hposition : (Reader.follow place.reader moves).position = place.origin + bytes)
    (hbytes : (Utf8.encode (place.after.take count)).length = bytes)
    (hcount : count < place.after.length) :
    (Reader.follow place.track moves).passed = count ∧ Move.passed moves = count := by
  have hwithin : Track.Within place.after (Reader.follow place.track moves) :=
    (Track.Within.initial place.after).follow moves
  have hpassed : (Reader.follow place.track moves).passed = count := by
    apply Utf8.take_inj hwithin.passed (Nat.le_of_lt hcount)
    rw [position_follow, Nat.add_left_cancel_iff] at hposition
    rw [hposition, hbytes]
  refine ⟨hpassed, ?_⟩
  -- The characters left are counted twice: by the track and by the moves
  have hahead : (Reader.follow place.track moves).rest = place.after.drop (Move.passed moves) :=
    Reader.ahead_follow place.track moves
  have hlength := congrArg List.length (hwithin.rest.symm.trans hahead)
  rw [hpassed, List.length_drop, List.length_drop] at hlength
  omega

inductive SameAhead (moves : List Move) (here there : Place) : Prop
  | toEnd (heq : there.after = here.after)
  | within (hpassed : (Reader.follow here.track moves).passed = Move.passed moves)
    (hagree : Agree (Move.passed moves) here.after there.after)

theorem sameAhead_of_agreeTo {moves : List Move} {bytes : Nat}
    (hposition : (Reader.follow here.reader moves).position = here.origin + bytes)
    (h : AgreeTo bytes here.after there.after) : SameAhead moves here there := by
  cases h with
  | toEnd _ heq => exact .toEnd heq
  | within hbytes hagree =>
    obtain ⟨hpassed, rfl⟩ := passed_eq hposition hbytes hagree.lt_length
    exact .within hpassed hagree

theorem SameAhead.scan_eq {state other : State} {tabWidth : UInt32} {valid : TokenSet}
    (h : SameAhead (state.scan tabWidth valid here.after).moves here there)
    (htop : other.indents.top = state.indents.top)
    (hdelimiter : other.delimiter? = state.delimiter?) :
    other.scan tabWidth valid there.after = state.scan tabWidth valid here.after := by
  cases h with
  | toEnd heq =>
    rw [heq, State.scan, State.scan, htop, hdelimiter]
  | within _ hagree => exact State.scan_eq_of_agree htop hdelimiter hagree

theorem SameAhead.alike {moves : List Move} (h : SameAhead moves here there) :
    Track.Alike (Reader.follow here.track moves) (Reader.follow there.track moves) := by
  cases h with
  | toEnd heq =>
    rw [track, track, heq]
    exact ⟨rfl, rfl, rfl⟩
  | within _ hagree =>
    apply Track.Alike.follow
    . exact ⟨rfl, rfl, rfl⟩
    . exact Nat.le_of_lt hagree.lt_length
    . exact Nat.le_of_lt hagree.symm.lt_length

theorem SameAhead.length_encode_take {moves : List Move} (h : SameAhead moves here there)
    {count : Nat} (hcount : count ≤ (Reader.follow here.track moves).passed) :
    (Utf8.encode (there.after.take count)).length = (Utf8.encode (here.after.take count)).length := by
  cases h with
  | toEnd heq => rw [heq]
  | within hpassed hagree =>
    rw [hpassed] at hcount
    rw [hagree.take_eq hcount]

end Place

structure ByteReader.Shifted (origin other : Nat) (lhs rhs : ByteReader) : Prop where
  position : rhs.position + origin = lhs.position + other
  start : rhs.start + origin = lhs.start + other
  mark? : rhs.mark?.map (· + origin) = lhs.mark?.map (· + other)

theorem ByteReader.Shifted.token {origin other : Nat} {lhs rhs : ByteReader}
    (h : Shifted origin other lhs rhs) (kind : TokenKind) :
    (rhs.token kind).start + origin = (lhs.token kind).start + other ∧
      (rhs.token kind).stop + origin = (lhs.token kind).stop + other := by
  obtain ⟨hposition, hstart, hmark⟩ := h
  have hstop : rhs.mark?.getD rhs.position + origin = lhs.mark?.getD lhs.position + other := by
    cases hlhs : lhs.mark? with
    | none =>
      rw [hlhs, Option.map_none, Option.map_eq_none_iff] at hmark
      rw [hmark]
      exact hposition
    | some mark =>
      rw [hlhs, Option.map_some, Option.map_eq_some_iff] at hmark
      obtain ⟨other, hrhs, hmark⟩ := hmark
      rw [hrhs]
      exact hmark
  refine ⟨?_, hstop⟩
  simp only [ByteReader.token]
  omega

theorem Place.SameAhead.shifted {here there : Place} {moves : List Move}
    (h : SameAhead moves here there) :
    ByteReader.Shifted here.origin there.origin (Reader.follow here.reader moves)
      (Reader.follow there.reader moves) := by
  have hwithin := (Track.Within.initial here.after).follow moves
  have hhere := here.tracks_follow moves
  have hthere := there.tracks_follow moves
  obtain ⟨hpassed, hstart, hmark⟩ := h.alike
  have hoffset {count : Nat} (hcount : count ≤ (Reader.follow here.track moves).passed) :
      there.origin + Utf8.offset (Utf8.pieces (Utf8.encode there.after)) count + here.origin
        =
      here.origin + Utf8.offset (Utf8.pieces (Utf8.encode here.after)) count + there.origin := by
    rw [Utf8.offset_pieces_encode, Utf8.offset_pieces_encode, h.length_encode_take hcount]
    omega
  exact
    {
      position := by
        rw [hhere.position, hthere.position, hpassed]
        apply hoffset (Nat.le_refl _)
      start := by
        rw [hhere.start, hthere.start, hstart]
        apply hoffset hwithin.start
      mark? := by
        rw [hhere.mark?, hthere.mark?, hmark]
        cases hcount : (Reader.follow here.track moves).mark? with
        | none => rfl
        | some count => exact congrArg some (hoffset (hwithin.mark? count hcount))
    }

namespace Scanner

structure Repeats (bytes : Nat) (here there : Place) (lhs rhs : State)
    (first second : Logged (Scanned ByteReader)) : Prop where
  events : second.events = first.events
  found : ∃ kind? change,
    first.value.outcome = first.value.scanner.report kind? ∧
    second.value.outcome = second.value.scanner.report kind? ∧
    Change.Between lhs first.value.scanner.state change ∧
    Change.Between rhs second.value.scanner.state change
  position : first.value.reader.position = here.origin + bytes ∧
    second.value.reader.position = there.origin + bytes
  mark? : second.value.reader.mark?.map (· + here.origin)
    = first.value.reader.mark?.map (· + there.origin)
  token : ∀ kind,
    (second.value.reader.token kind).start + here.origin
      = (first.value.reader.token kind).start + there.origin ∧
    (second.value.reader.token kind).stop + here.origin
      = (first.value.reader.token kind).stop + there.origin

variable {lhs rhs : Scanner} {here there : Place} {bytes : Nat}

theorem found_of_walk_eq {valid : TokenSet}
    (hwalk : rhs.walk valid there.after = lhs.walk valid here.after)
    (htop : rhs.state.indents.top = lhs.state.indents.top)
    (hdelimiter : rhs.state.delimiter? = lhs.state.delimiter?) :
    ∃ kind? change,
      (lhs.scan here.reader valid).value.outcome
        = (lhs.scan here.reader valid).value.scanner.report kind? ∧
      (rhs.scan there.reader valid).value.outcome
        = (rhs.scan there.reader valid).value.scanner.report kind? ∧
      Change.Between lhs.state (lhs.scan here.reader valid).value.scanner.state change ∧
      Change.Between rhs.state (rhs.scan there.reader valid).value.scanner.state change := by
  rw [outcome_scan_eq_report, outcome_scan_eq_report, state_scan, state_scan, here.ahead_reader,
    there.ahead_reader, hwalk]
  cases hvalue : (lhs.walk valid here.after).value with
  | none => exact ⟨none, .keep, rfl, rfl, rfl, rfl⟩
  | some found =>
    have hfirst := (State.finds_of_scan hvalue).between
    have hsecond := (State.finds_of_scan (hwalk ▸ hvalue)).between
    rw [State.change_congr htop hdelimiter] at hsecond
    exact ⟨some found.kind, lhs.state.change found, rfl, rfl, hfirst, hsecond⟩

theorem repeats_of_agreeTo (valid : TokenSet)
    (htabWidth : rhs.options.tabWidth = lhs.options.tabWidth)
    (htop : rhs.state.indents.top = lhs.state.indents.top)
    (hdelimiter : rhs.state.delimiter? = lhs.state.delimiter?)
    (hposition : (lhs.scan here.reader valid).value.reader.position = here.origin + bytes)
    (hagree : AgreeTo bytes here.after there.after) :
    Repeats bytes here there lhs.state rhs.state (lhs.scan here.reader valid)
      (rhs.scan there.reader valid) := by
  have hsame : Place.SameAhead (lhs.walk valid here.after).moves here there := by
    rw [reader_scan, here.ahead_reader] at hposition
    apply Place.sameAhead_of_agreeTo hposition hagree
  have hwalk : rhs.walk valid there.after = lhs.walk valid here.after := by
    rw [walk, htabWidth]
    exact hsame.scan_eq htop hdelimiter
  have hshifted : (lhs.scan here.reader valid).value.reader.Shifted here.origin there.origin
      (rhs.scan there.reader valid).value.reader := by
    rw [reader_scan, reader_scan, here.ahead_reader, there.ahead_reader, hwalk]
    exact hsame.shifted
  exact
    {
      events := by
        rw [events_scan, events_scan, here.ahead_reader, there.ahead_reader, hwalk]
      found := found_of_walk_eq hwalk htop hdelimiter
      position := by
        refine ⟨hposition, ?_⟩
        have hmoved := hshifted.position
        rw [hposition] at hmoved
        omega
      mark? := hshifted.mark?
      token := hshifted.token
    }

theorem repeats_indented_line :
    let lhs : Scanner :=
      { state := { indents := .push .base 4 (by decide), delimiters := #[⟨0x11⟩] } }
    let rhs : Scanner :=
      {
        state :=
          {
            indents := .push (.push .base 2 (by decide)) 4 (by decide)
            delimiters := #[⟨0x22⟩, ⟨0x11⟩]
          }
      }
    let here : Place :=
      {
        source := "if é:\n\t# no\n\tx"
        offset := 6
        before := "if é:".toList
        after := "\n\t# no\n\tx".toList
        toList_source := by decide
        min_offset := by decide
      }
    let there : Place :=
      {
        source := "\n\t# no\n\txyz = 1"
        offset := 0
        before := []
        after := "\n\t# no\n\txyz = 1".toList
        toList_source := by decide
        min_offset := by decide
      }
    let valid : TokenSet := .ofList [.newline, .indent, .dedent, .stringContent]
    (lhs.scan here.reader valid).value.reader.position = here.origin + 8 ∧
      AgreeTo 8 here.after there.after ∧
      Repeats 8 here there lhs.state rhs.state (lhs.scan here.reader valid)
        (rhs.scan there.reader valid) := by
  intro lhs rhs here there valid
  have hposition : (lhs.scan here.reader valid).value.reader.position = here.origin + 8 := by
    decide +kernel
  have hagree : AgreeTo 8 here.after there.after := by
    have hline := Agree.append_cons "\n\t# no\n\t".toList 'x' [] "yz = 1".toList
    exact .within (by decide) hline
  exact ⟨hposition, hagree, repeats_of_agreeTo valid rfl rfl rfl hposition hagree⟩

end Scanner

end Offside
