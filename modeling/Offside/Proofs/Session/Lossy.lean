import Offside.Proofs.Reading.Boundaries
import Offside.Proofs.Reading.Pieces

/-!
This module contains the proof that a scan of bytes which may be damaged is a scan of the text that the
bytes are read as, where each piece of the bytes stands for one character of the text.
-/

namespace Offside

namespace ByteReader

structure StepsThrough (reader : ByteReader) (pieces : List Utf8.Piece) : Prop where
  position : ∀ moves, (Reader.follow reader moves).position
    = reader.position + Utf8.offset pieces (Move.passed moves)
  lookahead? : ∀ moves, (Reader.follow reader moves).lookahead?
    = pieces[Move.passed moves]?.map Utf8.Piece.char

theorem stepsThrough (bytes : List UInt8) (origin : Nat) :
    StepsThrough ⟨bytes, origin, origin, none⟩ (Utf8.pieces bytes) where
  position := position_follow bytes origin
  lookahead? := by
    intro moves
    rw [lookahead?_eq, Reader.ahead_follow, List.head?_drop]
    apply List.getElem?_map

end ByteReader

namespace Utf8

def Matches (pieces : List Piece) (origin offset other : Nat) : Prop :=
  ∃ count ≤ pieces.length, offset = origin + Utf8.offset pieces count ∧
    other = (encode ((pieces.map Piece.char).take count)).length

variable {pieces : List Piece} {origin lhs rhs offset other : Nat}

theorem Matches.min (hlhs : Matches pieces origin lhs offset) (hrhs : Matches pieces origin rhs other) :
    Matches pieces origin (min lhs rhs) (min offset other) := by
  obtain ⟨count, hcount, rfl, rfl⟩ := hlhs
  obtain ⟨more, hmore, rfl, rfl⟩ := hrhs
  refine ⟨min count more, Nat.le_trans (Nat.min_le_left count more) hcount, ?_, ?_⟩
  . rw [Nat.add_min_add_left, min_offset]
  . rw [← offset_pieces_encode, ← offset_pieces_encode, ← offset_pieces_encode, min_offset]

end Utf8

namespace Scanner

structure ReadsAs (pieces : List Utf8.Piece) (origin : Nat) (damaged text : Scanned ByteReader) :
    Prop where
  outcome : damaged.outcome = text.outcome
  scanner : damaged.scanner = text.scanner
  position : Utf8.Matches pieces origin damaged.reader.position text.reader.position
  mark? : Option.Rel (Utf8.Matches pieces origin) damaged.reader.mark? text.reader.mark?
  start : ∀ kind, Utf8.Matches pieces origin (damaged.reader.token kind).start
    (text.reader.token kind).start
  stop : ∀ kind, Utf8.Matches pieces origin (damaged.reader.token kind).stop
    (text.reader.token kind).stop

end Scanner

namespace ByteReader

theorem matches_of_tracks {pieces : List Utf8.Piece} {origin : Nat} {damaged text : ByteReader}
    {track : Track} (hdamaged : Tracks pieces origin damaged track)
    (htext : Tracks (Utf8.pieces (Utf8.encode (pieces.map Utf8.Piece.char))) 0 text track)
    (h : Track.Within (pieces.map Utf8.Piece.char) track) :
    Utf8.Matches pieces origin damaged.position text.position ∧
      Utf8.Matches pieces origin damaged.start text.start ∧
      Option.Rel (Utf8.Matches pieces origin) damaged.mark? text.mark? := by
  have hpassed := h.passed
  rw [List.length_map] at hpassed
  have hcount (count : Nat) (hle : count ≤ track.passed) :
      Utf8.Matches pieces origin (origin + Utf8.offset pieces count)
        (0 + Utf8.offset (Utf8.pieces (Utf8.encode (pieces.map Utf8.Piece.char))) count) := by
    refine ⟨count, Nat.le_trans hle hpassed, rfl, ?_⟩
    rw [Nat.zero_add, Utf8.offset_pieces_encode]
  rw [hdamaged.position, htext.position, hdamaged.start, htext.start, hdamaged.mark?, htext.mark?]
  refine ⟨hcount _ (Nat.le_refl _), hcount _ h.start, ?_⟩
  cases hmark : track.mark? with
  | none => exact .none
  | some mark => exact .some (hcount mark (h.mark? mark hmark))

theorem matches_token {pieces : List Utf8.Piece} {origin : Nat} {damaged text : ByteReader}
    (kind : TokenKind) (hposition : Utf8.Matches pieces origin damaged.position text.position)
    (hstart : Utf8.Matches pieces origin damaged.start text.start)
    (hmark : Option.Rel (Utf8.Matches pieces origin) damaged.mark? text.mark?) :
    Utf8.Matches pieces origin (damaged.token kind).start (text.token kind).start ∧
      Utf8.Matches pieces origin (damaged.token kind).stop (text.token kind).stop := by
  have hstop : Utf8.Matches pieces origin (damaged.mark?.getD damaged.position)
      (text.mark?.getD text.position) := by
    generalize damaged.mark? = mark? at hmark ⊢
    generalize text.mark? = other? at hmark ⊢
    cases hmark with
    | none => exact hposition
    | some hmark => exact hmark
  exact ⟨hstart.min hstop, hstop⟩

theorem ofString_ofList (chars : List Char) :
    ofString (.ofList chars) 0 = ⟨Utf8.encode chars, 0, 0, none⟩ := by
  rw [ofString, ofBytes, String.toList_ofList, Nat.zero_min, List.drop_zero]

end ByteReader

namespace Scanner

theorem readsAs_scan (scanner : Scanner) (bytes : List UInt8) (origin : Nat) (valid : TokenSet) :
    ReadsAs (Utf8.pieces bytes) origin
      (scanner.scan (⟨bytes, origin, origin, none⟩ : ByteReader) valid).value
      (scanner.scan (⟨Utf8.encode (Utf8.chars bytes), 0, 0, none⟩ : ByteReader) valid).value := by
  have hdamaged := ByteReader.tracks_start bytes origin
  have htext := ByteReader.tracks_start (Utf8.encode (Utf8.chars bytes)) 0
  have hahead : Reader.ahead (⟨bytes, origin, origin, none⟩ : ByteReader)
      = Reader.ahead (⟨Utf8.encode (Utf8.chars bytes), 0, 0, none⟩ : ByteReader) :=
    (Utf8.chars_encode _).symm
  rw [Utf8.chars_encode] at htext
  -- What is ahead decides about the moves, so that both readers are moved in the same way
  let moves := (scanner.walk valid (Utf8.chars bytes)).moves
  obtain ⟨hposition, hstart, hmark⟩ := ByteReader.matches_of_tracks (hdamaged.follow moves)
    (htext.follow moves) ((Track.Within.initial (Utf8.chars bytes)).follow moves)
  have hreader : (scanner.scan (⟨Utf8.encode (Utf8.chars bytes), 0, 0, none⟩ : ByteReader) valid).value.reader
      = Reader.follow ⟨Utf8.encode (Utf8.chars bytes), 0, 0, none⟩ moves := by
    rw [reader_scan, ← hahead]
    rfl
  obtain ⟨houtcome, hscanner, _⟩ := scan_eq_of_ahead_eq scanner valid hahead
  exact
    {
      outcome := houtcome
      scanner := hscanner
      position := by
        rw [hreader]
        exact hposition
      mark? := by
        rw [hreader]
        exact hmark
      start := by
        intro kind
        rw [hreader]
        exact (ByteReader.matches_token kind hposition hstart hmark).1
      stop := by
        intro kind
        rw [hreader]
        exact (ByteReader.matches_token kind hposition hstart hmark).2
    }

theorem scan_damaged (scanner : Scanner) (source : List UInt8) (offset : Nat) (valid : TokenSet) :
    let reader := ByteReader.ofBytes source offset
    ∃ pieces : List Utf8.Piece,
      Utf8.FallsInto (source.drop offset) pieces ∧
      reader.position + Utf8.size pieces = source.length ∧
      reader.StepsThrough pieces ∧
      let text := String.ofList (pieces.map Utf8.Piece.char)
      let damaged := scanner.scan reader valid
      let lossy := scanner.scan (ByteReader.ofString text 0) valid
      damaged.events = lossy.events ∧ ReadsAs pieces reader.position damaged.value lossy.value := by
  intro reader
  have hrest : reader.rest = source.drop offset := ByteReader.rest_ofBytes source offset
  have hreader : reader = ⟨reader.rest, reader.position, reader.position, none⟩ := rfl
  refine ⟨Utf8.pieces reader.rest, ?_, ?_, ?_, ?_⟩
  . rw [hrest]
    apply Utf8.fallsInto_pieces
  . rw [Utf8.size_pieces, hrest, List.length_drop]
    simp only [reader, ByteReader.ofBytes]
    omega
  . rw [hreader]
    apply ByteReader.stepsThrough
  . intro text damaged lossy
    have htext : ByteReader.ofString text 0 = ⟨Utf8.encode (Utf8.chars reader.rest), 0, 0, none⟩ :=
      ByteReader.ofString_ofList (Utf8.chars reader.rest)
    have hahead : Reader.ahead reader = Reader.ahead (ByteReader.ofString text 0) := by
      rw [htext]
      exact (Utf8.chars_encode _).symm
    refine ⟨(scan_eq_of_ahead_eq scanner valid hahead).2.2, ?_⟩
    simp only [damaged, lossy]
    rw [htext]
    exact readsAs_scan scanner reader.rest reader.position valid

end Scanner

end Offside
