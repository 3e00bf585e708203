import Offside.Proofs.Reading.Track
import Offside.Reader.CodePoints

/-!
This module contains the proof that a reader of code points and a reader of the bytes of the same
text, moved in the same way, stay at the same place. This takes moves that skip only in front of
everything they consume, since a reader of code points starts its token anew even at the end.
-/

namespace Offside

namespace CodePointReader

/--
What a number stands for in a text: the character with this code point, or U+FFFD where there is no
such character.
-/
inductive StandsFor (unit : Int32) : Char → Prop where
  | codePoint {char : Char} (h : unit.toInt = char.toNat) : StandsFor unit char
  | replaced (h : ∀ char : Char, unit.toInt ≠ char.toNat) : StandsFor unit '\uFFFD'

theorem StandsFor.unique {unit : Int32} {lhs rhs : Char} (hlhs : StandsFor unit lhs)
    (hrhs : StandsFor unit rhs) : lhs = rhs := by
  cases hlhs with
  | codePoint hlhs =>
    cases hrhs with
    | codePoint hrhs =>
      apply Char.toNat_inj.mp
      omega
    | replaced hrhs => exact absurd hlhs (hrhs lhs)
  | replaced hlhs =>
    cases hrhs with
    | codePoint hrhs => exact absurd hrhs (hlhs rhs)
    | replaced => rfl

theorem toInt_eq_toNat_iff {unit : Int32} {char : Char} :
    unit.toInt = char.toNat ↔ unit.toUInt32 = char.val := by
  have hvalid : char.toNat < 0xd800 ∨ 0xdfff < char.toNat ∧ char.toNat < 0x110000 := char.valid
  have hlt := unit.toUInt32.toBitVec.isLt
  rw [← UInt32.toNat_inj]
  change unit.toUInt32.toBitVec.toInt = char.toNat ↔ unit.toUInt32.toBitVec.toNat = char.toNat
  -- A negative number has the same bits as one that is too large for a code point
  rw [BitVec.toInt_eq_toNat_cond]
  split <;> omega

def character (unit : Int32) : { char : Char // StandsFor unit char } :=
  if h : unit.toUInt32.isValidChar then
    ⟨⟨unit.toUInt32, h⟩, .codePoint (toInt_eq_toNat_iff.mpr rfl)⟩
  else
    ⟨'\uFFFD', .replaced (by
      intro char hchar
      rw [toInt_eq_toNat_iff.mp hchar] at h
      exact h char.valid)⟩

theorem standsFor_toChar (unit : Int32) : StandsFor unit (toChar unit) := by
  unfold toChar
  split
  . next h =>
    apply StandsFor.codePoint
    rw [Char.ofNat, dif_pos h.2]
    exact (Int.toNat_of_nonneg h.1).symm
  . next h =>
    apply StandsFor.replaced
    intro char hchar
    apply h
    rw [hchar]
    exact ⟨Int.natCast_nonneg _, char.valid⟩

theorem character_eq_toChar (unit : Int32) : (character unit).val = toChar unit := by
  apply StandsFor.unique (character unit).property
  apply standsFor_toChar

def bytes (units : List Int32) : List UInt8 :=
  Utf8.encode (units.map fun unit => (character unit).val)

theorem bytes_eq_encode_map_toChar (units : List Int32) :
    bytes units = Utf8.encode (units.map toChar) := by
  rw [bytes, funext character_eq_toChar]

def byteOffset (units : List Int32) (index : Nat) : Nat :=
  (bytes (units.take index)).length

def inBytes (units : List Int32) (index : Nat) : ByteReader :=
  .ofBytes (bytes units) (byteOffset units index)

structure Corresponds (units : List Int32) (index offset : Nat) : Prop where
  le_length : index ≤ units.length
  offset_eq : offset = byteOffset units index

theorem bytes_append (lhs rhs : List Int32) : bytes (lhs ++ rhs) = bytes lhs ++ bytes rhs := by
  rw [bytes, List.map_append, Utf8.encode_append]
  rfl

theorem byteOffset_add (units : List Int32) (index count : Nat) :
    byteOffset units (index + count) = byteOffset units index + byteOffset (units.drop index) count := by
  rw [byteOffset, List.take_add, bytes_append, List.length_append]
  rfl

theorem byteOffset_le {units : List Int32} {lhs rhs : Nat} (h : lhs ≤ rhs) :
    byteOffset units lhs ≤ byteOffset units rhs := by
  obtain ⟨count, rfl⟩ := Nat.exists_eq_add_of_le h
  rw [byteOffset_add]
  apply Nat.le_add_right

theorem byteOffset_le_length (units : List Int32) (index : Nat) :
    byteOffset units index ≤ (bytes units).length := by
  have happend := bytes_append (units.take index) (units.drop index)
  rw [List.take_append_drop] at happend
  rw [happend, List.length_append]
  apply Nat.le_add_right

theorem byteOffset_min_length (units : List Int32) (index : Nat) :
    byteOffset units (min index units.length) = byteOffset units index := by
  rw [byteOffset, ← List.take_eq_take_min]
  rfl

theorem offset_pieces_bytes (units : List Int32) (count : Nat) :
    Utf8.offset (Utf8.pieces (bytes units)) count = byteOffset units count := by
  rw [bytes, Utf8.offset_pieces_encode, ← List.map_take]
  rfl

theorem Corresponds.min {units : List Int32} {index other offset bound : Nat}
    (h : Corresponds units index offset) (hother : Corresponds units other bound) :
    Corresponds units (min index other) (min offset bound) := by
  cases Nat.le_total index other with
  | inl hle =>
    have hoffset : offset ≤ bound := by
      rw [h.offset_eq, hother.offset_eq]
      apply byteOffset_le hle
    rw [Nat.min_eq_left hle, Nat.min_eq_left hoffset]
    exact h
  | inr hle =>
    have hoffset : bound ≤ offset := by
      rw [h.offset_eq, hother.offset_eq]
      apply byteOffset_le hle
    rw [Nat.min_eq_right hle, Nat.min_eq_right hoffset]
    exact hother

structure Tracks (origin : Nat) (reader : CodePointReader) (track : Track) : Prop where
  rest : track.rest = Reader.ahead reader
  cursor : reader.cursor = origin + track.passed
  start : reader.start = origin + track.start
  stop : reader.stop = origin + track.mark?.getD 0

variable {origin : Nat} {reader : CodePointReader} {track : Track}

theorem Tracks.consume (h : Tracks origin reader track) :
    Tracks origin reader.consume track.consume := by
  have hrest := h.rest
  cases hunits : reader.rest with
  | nil =>
    simp only [Reader.ahead, hunits, List.map_nil] at hrest
    rw [CodePointReader.consume, hunits, Track.consume, hrest]
    exact h
  | cons unit units =>
    simp only [Reader.ahead, hunits, List.map_cons] at hrest
    rw [CodePointReader.consume, hunits, Track.consume, hrest]
    exact
      {
        rest := rfl
        cursor := by
          dsimp only
          rw [h.cursor, Nat.add_assoc]
        start := h.start
        stop := h.stop
      }

theorem Tracks.skip (h : Tracks origin reader track) (hstart : track.start = track.passed) :
    Tracks origin reader.skip track.skip := by
  have hconsume := h.consume
  unfold Track.consume at hconsume
  unfold Track.skip
  cases hrest : track.rest with
  | nil =>
    rw [hrest] at hconsume
    exact { hconsume with start := by rw [hstart]; exact hconsume.cursor }
  | cons char chars =>
    rw [hrest] at hconsume
    exact { hconsume with start := hconsume.cursor }

theorem Tracks.mark (h : Tracks origin reader track) : Tracks origin reader.mark track.mark :=
  { h with stop := h.cursor }

theorem Tracks.follow_of_ne_consume {moves : List Move} (hmoves : ∀ move ∈ moves, move ≠ .consume)
    (h : Tracks origin reader track) (hstart : track.start = track.passed) :
    Tracks origin (Reader.follow reader moves) (Reader.follow track moves) := by
  -- Until something is consumed, the token starts where the reader is
  suffices hboth : Tracks origin (Reader.follow reader moves) (Reader.follow track moves) ∧
      (Reader.follow track moves).start = (Reader.follow track moves).passed by
    exact hboth.1
  apply Reader.follow_rel (fun (reader : CodePointReader) (track : Track) =>
    Tracks origin reader track ∧ track.start = track.passed) _ ⟨h, hstart⟩
  intro next hmem reader track hboth
  cases next with
  | skip =>
    constructor
    . apply hboth.1.skip hboth.2
    . simp only [Reader.move, Track.skip]
      split
      . exact hboth.2
      . rfl
  | consume => exact absurd rfl (hmoves _ hmem)
  | mark => exact ⟨hboth.1.mark, hboth.2⟩

theorem Tracks.follow_of_ne_skip {moves : List Move} (hmoves : ∀ move ∈ moves, move ≠ .skip)
    (h : Tracks origin reader track) :
    Tracks origin (Reader.follow reader moves) (Reader.follow track moves) := by
  apply Reader.follow_rel (Tracks origin) _ h
  intro next hmem reader track h
  cases next with
  | skip => exact absurd rfl (hmoves _ hmem)
  | consume => exact h.consume
  | mark => exact h.mark

@[simp]
theorem symbol_follow (reader : CodePointReader) (moves : List Move) :
    (Reader.follow reader moves).symbol = reader.symbol := by
  apply Reader.follow_inv fun later : CodePointReader => later.symbol = reader.symbol
  . intro next _ later hlater
    cases next with
    | skip =>
      simp only [Reader.move, CodePointReader.skip, CodePointReader.consume]
      split <;> exact hlater
    | consume =>
      simp only [Reader.move, CodePointReader.consume]
      split <;> exact hlater
    | mark => exact hlater
  . rfl

section Alongside

structure Alongside (units : List Int32) (origin : Nat) (reader : CodePointReader)
    (other : ByteReader) : Prop where
  ahead : Reader.ahead reader = Reader.ahead other
  cursor : Corresponds units reader.cursor other.position
  start : Corresponds units reader.start other.start
  stop_of_mark : ∀ mark ∈ other.mark?, Corresponds units reader.stop mark
  stop_of_none : other.mark? = none → reader.stop = origin

variable {units : List Int32} {other : ByteReader}

theorem corresponds_add {count : Nat} (h : origin + count ≤ units.length) :
    Corresponds units (origin + count)
      (byteOffset units origin + Utf8.offset (Utf8.pieces (bytes (units.drop origin))) count) where
  le_length := h
  offset_eq := by rw [byteOffset_add, offset_pieces_bytes]

theorem alongside_of_tracks (horigin : origin ≤ units.length)
    (h : Tracks origin reader track)
    (hother : ByteReader.Tracks (Utf8.pieces (bytes (units.drop origin))) (byteOffset units origin)
      other track)
    (hwithin : Track.Within ((units.drop origin).map toChar) track) :
    Alongside units origin reader other := by
  have hpassed : origin + track.passed ≤ units.length := by
    have := hwithin.passed
    rw [List.length_map, List.length_drop] at this
    omega
  exact
    {
      ahead := h.rest.symm.trans hother.rest
      cursor := by
        rw [h.cursor, hother.position]
        apply corresponds_add hpassed
      start := by
        have := hwithin.start
        rw [h.start, hother.start]
        apply corresponds_add
        omega
      stop_of_mark := by
        intro mark hmark
        rw [hother.mark?, Option.mem_def, Option.map_eq_some_iff] at hmark
        obtain ⟨count, hcount, rfl⟩ := hmark
        have := hwithin.mark? count hcount
        rw [h.stop, hcount]
        apply corresponds_add
        dsimp only [Option.getD_some]
        omega
      stop_of_none := by
        intro hmark
        rw [hother.mark?, Option.map_eq_none_iff] at hmark
        rw [h.stop, hmark]
        rfl
    }

theorem alongside_follow (units : List Int32) (index : Nat) (symbol : UInt16) {before after : List Move}
    (hbefore : ∀ move ∈ before, move ≠ .consume) (hafter : ∀ move ∈ after, move ≠ .skip) :
    Alongside units (min index units.length)
      (Reader.follow { ofCodePoints units index with symbol } (before ++ after))
      (Reader.follow (inBytes units index) (before ++ after)) := by
  let origin := min index units.length
  let chars := (units.drop origin).map toChar
  have hchars : units.map toChar = (units.take origin).map toChar ++ chars := by
    rw [← List.map_append, List.take_append_drop]
  have hoffset : byteOffset units index = byteOffset units origin :=
    (byteOffset_min_length units index).symm
  have hhost : Tracks origin
      (Reader.follow { ofCodePoints units index with symbol } (before ++ after))
      (Reader.follow { rest := chars : Track } (before ++ after)) := by
    rw [Reader.follow_append, Reader.follow_append]
    apply Tracks.follow_of_ne_skip hafter
    apply Tracks.follow_of_ne_consume hbefore
    . exact ⟨rfl, rfl, rfl, rfl⟩
    . rfl
  apply alongside_of_tracks (Nat.min_le_right _ _) hhost
  . apply ByteReader.Tracks.follow
    have hle := byteOffset_le_length units origin
    rw [inBytes, hoffset]
    simp only [byteOffset, bytes_eq_encode_map_toChar] at hle ⊢
    rw [hchars] at hle ⊢
    apply ByteReader.tracks_ofBytes
    exact Nat.min_eq_left hle
  . apply Track.Within.follow
    apply Track.Within.initial

theorem ahead_inBytes (units : List Int32) (index : Nat) (symbol : UInt16) :
    Reader.ahead { ofCodePoints units index with symbol } = Reader.ahead (inBytes units index) := by
  have hstart := @alongside_follow units index symbol [] [] (by simp) (by simp)
  exact hstart.ahead

end Alongside

end CodePointReader

end Offside
