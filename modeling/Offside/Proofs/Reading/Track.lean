import Offside.Reader.Bytes

/-!
This module contains readers that count characters and know nothing of how a source is stored, and
the proof that a reader of bytes is always where such a reader is, whatever the moves are.
-/

namespace Offside

namespace Utf8

def offset (pieces : List Piece) (count : Nat) : Nat :=
  size (pieces.take count)

theorem size_append (lhs rhs : List Piece) : size (lhs ++ rhs) = size lhs + size rhs := by
  induction lhs with
  | nil => simp
  | cons piece lhs ih => rw [List.cons_append, size_cons, size_cons, ih, Nat.add_assoc]

theorem offset_succ {pieces rest : List Piece} {piece : Piece} {count : Nat}
    (h : pieces.drop count = piece :: rest) :
    offset pieces (count + 1) = offset pieces count + piece.width := by
  have hget : pieces[count]? = some piece := by
    rw [← List.head?_drop, h, List.head?_cons]
  rw [offset, List.take_add_one, hget, size_append]
  simp [offset]

def pieceOf (char : Char) : Piece :=
  ⟨char, char.utf8Size⟩

theorem pieces_encode (chars : List Char) : pieces (encode chars) = chars.map pieceOf := by
  induction chars with
  | nil => rfl
  | cons char chars ih => rw [encode_cons, pieces_encodeChar_append, ih, List.map_cons, pieceOf]

theorem size_map_pieceOf (chars : List Char) : size (chars.map pieceOf) = (encode chars).length := by
  rw [← pieces_encode, size_pieces]

theorem offset_pieces_encode (chars : List Char) (count : Nat) :
    offset (pieces (encode chars)) count = (encode (chars.take count)).length := by
  rw [offset, pieces_encode, ← List.map_take, size_map_pieceOf]

end Utf8

namespace Reader

variable {ρ σ : Type} [Reader ρ] [Reader σ] {moves : List Move}

theorem follow_rel (R : ρ → σ → Prop)
    (hmove : ∀ next ∈ moves, ∀ lhs rhs, R lhs rhs → R (move lhs next) (move rhs next))
    {lhs : ρ} {rhs : σ} (h : R lhs rhs) : R (follow lhs moves) (follow rhs moves) := by
  induction moves generalizing lhs rhs with
  | nil => exact h
  | cons next moves ih =>
    rw [List.forall_mem_cons] at hmove
    rw [follow_cons, follow_cons]
    apply ih hmove.2
    apply hmove.1 _ _ h

theorem follow_inv (P : ρ → Prop)
    (hmove : ∀ next ∈ moves, ∀ reader, P reader → P (move reader next)) {reader : ρ}
    (h : P reader) : P (follow reader moves) := by
  apply follow_rel (fun lhs (_ : ρ) => P lhs)
  . intro next hmem lhs _ hlhs
    apply hmove next hmem lhs hlhs
  . exact reader
  . exact h

end Reader

/--
The characters from the current one on, and how many characters stand in front of it, of the token
and of its end, if there is a mark.
-/
structure Track where
  rest : List Char
  passed : Nat := 0
  start : Nat := 0
  mark? : Option Nat := none

namespace Track

def consume (track : Track) : Track :=
  match track.rest with
  | [] => track
  | _ :: rest => { track with rest, passed := track.passed + 1 }

def skip (track : Track) : Track :=
  match track.rest with
  | [] => track
  | _ :: rest => { track with rest, passed := track.passed + 1, start := track.passed + 1 }

def mark (track : Track) : Track :=
  { track with mark? := some track.passed }

instance : Reader Track where
  ahead := rest
  move
    | track, .skip => track.skip
    | track, .consume => track.consume
    | track, .mark => track.mark

theorem rest_consume (track : Track) : track.consume.rest = track.rest.tail := by
  unfold consume
  split
  . next h => rw [h, List.tail_nil]
  . next h => rw [h, List.tail_cons]

theorem rest_skip (track : Track) : track.skip.rest = track.rest.tail := by
  unfold skip
  split
  . next h => rw [h, List.tail_nil]
  . next h => rw [h, List.tail_cons]

instance : LawfulReader Track where
  ahead_skip := rest_skip
  ahead_consume := rest_consume
  ahead_mark _ := rfl

@[simp]
theorem follow_mark (track : Track) (moves : List Move) :
    Reader.follow track (.mark :: moves) = Reader.follow track.mark moves := rfl

theorem follow_replicate_consume (track : Track) {count : Nat} (h : count ≤ track.rest.length) :
    Reader.follow track (List.replicate count .consume)
      =
    { track with rest := track.rest.drop count, passed := track.passed + count } := by
  induction count generalizing track with
  | zero => rfl
  | succ count ih =>
    obtain ⟨_ | ⟨char, rest⟩, passed, start, mark?⟩ := track
    . simp at h
    . rw [List.replicate_succ, Reader.follow_cons]
      rw [ih]
      . simp [Reader.move, consume]
        omega
      . simpa [Reader.move, consume] using h

theorem follow_replicate_skip {track : Track} (hstart : track.start = track.passed) {count : Nat}
    (h : count ≤ track.rest.length) :
    Reader.follow track (List.replicate count .skip)
      =
    { track with
      rest := track.rest.drop count
      passed := track.passed + count
      start := track.start + count } := by
  induction count generalizing track with
  | zero => rfl
  | succ count ih =>
    obtain ⟨_ | ⟨char, rest⟩, passed, start, mark?⟩ := track
    . simp at h
    . rw [List.replicate_succ, Reader.follow_cons]
      rw [ih]
      . simp [Reader.move, skip] at hstart ⊢
        omega
      . simp [Reader.move, skip]
      . simpa [Reader.move, skip] using h

theorem follow_replicate_consume_mark? (track : Track) (count : Nat) :
    (Reader.follow track (List.replicate count .consume)).start = track.start ∧
      (Reader.follow track (List.replicate count .consume)).mark? = track.mark? := by
  apply Reader.follow_inv fun later : Track =>
    later.start = track.start ∧ later.mark? = track.mark?
  . intro next hmem later hlater
    rw [(List.mem_replicate.1 hmem).2]
    simp only [Reader.move, consume]
    split <;> exact hlater
  . exact ⟨rfl, rfl⟩

structure Within (chars : List Char) (track : Track) : Prop where
  rest : track.rest = chars.drop track.passed
  passed : track.passed ≤ chars.length
  start : track.start ≤ track.passed
  mark? : ∀ count ∈ track.mark?, count ≤ track.passed

namespace Within

variable {chars : List Char} {track : Track}

theorem initial (chars : List Char) : Within chars { rest := chars } where
  rest := rfl
  passed := Nat.zero_le _
  start := Nat.le_refl _
  mark? := by simp

theorem passed_lt (h : Within chars track) {char : Char} {rest : List Char}
    (hrest : track.rest = char :: rest) : track.passed < chars.length := by
  have hlength := congrArg List.length h.rest
  rw [hrest, List.length_cons, List.length_drop] at hlength
  omega

theorem consume (h : Within chars track) : Within chars track.consume := by
  unfold Track.consume
  split
  . exact h
  . next hrest =>
    exact
      {
        rest := by
          dsimp only
          rw [← List.tail_drop, ← h.rest, hrest, List.tail_cons]
        passed := h.passed_lt hrest
        start := Nat.le_succ_of_le h.start
        mark? := by
          intro count hmem
          apply Nat.le_succ_of_le
          apply h.mark? count hmem
      }

theorem skip (h : Within chars track) : Within chars track.skip := by
  have hconsume := h.consume
  unfold Track.consume at hconsume
  unfold Track.skip
  split
  . exact h
  . next hrest =>
    rw [hrest] at hconsume
    exact { hconsume with start := Nat.le_refl _ }

theorem mark (h : Within chars track) : Within chars track.mark where
  rest := h.rest
  passed := h.passed
  start := h.start
  mark? := by simp [Track.mark]

theorem follow (h : Within chars track) (moves : List Move) :
    Within chars (Reader.follow track moves) := by
  apply Reader.follow_inv (Within chars) _ h
  intro next _ track h
  cases next with
  | skip => exact h.skip
  | consume => exact h.consume
  | mark => exact h.mark

end Within

theorem mark?_ne_none_of_follow {track : Track} (h : track.mark? ≠ none) (moves : List Move) :
    (Reader.follow track moves).mark? ≠ none := by
  apply Reader.follow_inv (fun track : Track => track.mark? ≠ none) _ h
  intro next _ track h
  cases next with
  | skip =>
    simp only [Reader.move, skip]
    split <;> exact h
  | consume =>
    simp only [Reader.move, consume]
    split <;> exact h
  | mark => simp [Reader.move, mark]

theorem mark?_follow_ne_none {moves : List Move} (h : .mark ∈ moves) (track : Track) :
    (Reader.follow track moves).mark? ≠ none := by
  obtain ⟨before, after, rfl⟩ := List.append_of_mem h
  rw [Reader.follow_append, follow_mark]
  apply mark?_ne_none_of_follow
  simp [mark]

end Track

structure ByteReader.Tracks (pieces : List Utf8.Piece) (origin : Nat) (reader : ByteReader)
    (track : Track) : Prop where
  pieces_rest : Utf8.pieces reader.rest = pieces.drop track.passed
  rest : track.rest = Utf8.chars reader.rest
  position : reader.position = origin + Utf8.offset pieces track.passed
  start : reader.start = origin + Utf8.offset pieces track.start
  mark? : reader.mark? = track.mark?.map fun count => origin + Utf8.offset pieces count

namespace ByteReader

theorem tracks_start (bytes : List UInt8) (origin : Nat) :
    Tracks (Utf8.pieces bytes) origin ⟨bytes, origin, origin, none⟩ { rest := Utf8.chars bytes } where
  pieces_rest := rfl
  rest := rfl
  position := rfl
  start := rfl
  mark? := rfl

variable {pieces : List Utf8.Piece} {origin : Nat} {reader : ByteReader} {track : Track}

theorem Tracks.consume (h : Tracks pieces origin reader track) :
    Tracks pieces origin reader.consume track.consume := by
  have hrest := h.rest
  have hpieces := h.pieces_rest
  cases hbytes : reader.rest with
  | nil =>
    rw [hbytes, Utf8.chars_nil] at hrest
    rw [ByteReader.consume, hbytes, Track.consume, hrest]
    exact h
  | cons byte bytes =>
    rw [hbytes, Utf8.chars_cons] at hrest
    rw [hbytes, Utf8.pieces_cons] at hpieces
    rw [ByteReader.consume, hbytes, Track.consume, hrest]
    exact
      {
        pieces_rest := by
          dsimp only
          rw [← List.tail_drop, ← hpieces, List.tail_cons]
        rest := rfl
        position := by
          dsimp only
          rw [Utf8.offset_succ hpieces.symm, h.position, Nat.add_assoc]
        start := h.start
        mark? := h.mark?
      }

theorem Tracks.skip (h : Tracks pieces origin reader track) :
    Tracks pieces origin reader.skip track.skip := by
  have hconsume := h.consume
  have hrest := h.rest
  cases hbytes : reader.rest with
  | nil =>
    rw [hbytes, Utf8.chars_nil] at hrest
    rw [ByteReader.skip, hbytes, Track.skip, hrest]
    exact h
  | cons byte bytes =>
    rw [hbytes, Utf8.chars_cons] at hrest
    rw [Track.consume, hrest] at hconsume
    rw [ByteReader.skip, hbytes, Track.skip, hrest]
    exact { hconsume with start := hconsume.position }

theorem Tracks.mark (h : Tracks pieces origin reader track) :
    Tracks pieces origin reader.mark track.mark :=
  { h with mark? := by rw [ByteReader.mark, Track.mark, h.position]; rfl }

theorem Tracks.follow (h : Tracks pieces origin reader track) (moves : List Move) :
    Tracks pieces origin (Reader.follow reader moves) (Reader.follow track moves) := by
  apply Reader.follow_rel (Tracks pieces origin) _ h
  intro next _ reader track h
  cases next with
  | skip => exact h.skip
  | consume => exact h.consume
  | mark => exact h.mark

theorem tracks_ofBytes {before after : List Char} {offset : Nat}
    (hoffset : min offset (Utf8.encode (before ++ after)).length = (Utf8.encode before).length) :
    Tracks (Utf8.pieces (Utf8.encode after)) (Utf8.encode before).length
      (ofBytes (Utf8.encode (before ++ after)) offset) { rest := after } := by
  have htracks := tracks_start (Utf8.encode after) (Utf8.encode before).length
  rw [Utf8.chars_encode] at htracks
  rw [ofBytes, hoffset, Utf8.encode_append, List.drop_left]
  exact htracks

section Text

variable {source : String} {offset : Nat} {before after : List Char}

theorem tracks_ofString (hsource : source.toList = before ++ after)
    (hoffset : min offset (Utf8.encode source.toList).length = (Utf8.encode before).length) :
    Tracks (Utf8.pieces (Utf8.encode after)) (Utf8.encode before).length (ofString source offset)
      { rest := after } := by
  rw [hsource] at hoffset
  rw [ofString, hsource]
  apply tracks_ofBytes hoffset

theorem Tracks.text?_token {text rest : List Char} {start : Nat} (kind : TokenKind)
    (h : Tracks (Utf8.pieces (Utf8.encode after)) (Utf8.encode before).length reader track)
    (hsource : source.toList = before ++ after)
    (hstart : track.start = start) (hmark : track.mark? = some (start + text.length))
    (htext : after.drop start = text ++ rest) :
    (reader.token kind).text? source = some (String.ofList text) := by
  subst hstart
  have hstart : reader.start = (Utf8.encode (before ++ after.take track.start)).length := by
    rw [h.start, Utf8.offset_pieces_encode, Utf8.encode_append, List.length_append]
  have hstop : reader.mark? = some (reader.start + (Utf8.encode text).length) := by
    rw [h.mark?, hmark, Option.map_some, Utf8.offset_pieces_encode, List.take_add, htext,
      List.take_left, Utf8.encode_append, List.length_append, ← Nat.add_assoc, h.start,
      Utf8.offset_pieces_encode]
  have hsplit : source.toList = (before ++ after.take track.start) ++ (text ++ rest) := by
    rw [hsource, List.append_assoc, ← htext, List.take_append_drop]
  rw [token, hstop, Option.getD_some, Nat.min_eq_left (Nat.le_add_right ..), Token.text?]
  dsimp only
  rw [Nat.add_sub_cancel_left, hstart, hsplit, Utf8.drop?_length_encode]
  simp

end Text

end ByteReader

end Offside
