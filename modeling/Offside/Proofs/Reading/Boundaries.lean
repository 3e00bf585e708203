import Offside.Proofs.Reading.Resuming
import Offside.Proofs.Scanning.Answer

/-!
This module contains the proof that a reader of a text stops only between two of its characters, so that
a token which it has read covers a part of the text.
-/

namespace Offside

namespace Utf8

def IsBoundary (text : String) (offset : Nat) : Prop :=
  ∃ before after, text.toList = before ++ after ∧ offset = (encode before).length

theorem length_encode_eq_zero_iff {chars : List Char} : (encode chars).length = 0 ↔ chars = [] := by
  cases chars with
  | nil => simp
  | cons char chars =>
    have hpos := char.utf8Size_pos
    rw [encode_cons, List.length_append, String.length_utf8EncodeChar]
    simp
    omega

theorem offset_pos {bytes : List UInt8} {count : Nat} (hbytes : bytes ≠ []) (hcount : 0 < count) :
    0 < offset (pieces bytes) count := by
  obtain ⟨byte, bytes, rfl⟩ := List.exists_cons_of_ne_nil hbytes
  obtain ⟨count, rfl⟩ := Nat.exists_eq_add_of_le' hcount
  have hwidth := one_le_width_decode byte bytes
  rw [pieces_cons, offset, List.take_succ_cons, size_cons]
  omega

theorem offset_add (pieces : List Piece) (lhs rhs : Nat) :
    offset pieces (lhs + rhs) = offset pieces lhs + offset (pieces.drop lhs) rhs := by
  rw [offset, List.take_add, size_append]
  rfl

end Utf8

theorem Token.exists_text? {token : Token} {text : String} (hstart : Utf8.IsBoundary text token.start)
    (hstop : Utf8.IsBoundary text token.stop) (h : token.start ≤ token.stop) :
    ∃ covered, token.text? text = some covered := by
  obtain ⟨before, more, htext, hbefore⟩ := hstart
  obtain ⟨within, after, hother, hwithin⟩ := hstop
  have hprefix : before <+: within := by
    have hlhs : before <+: text.toList := ⟨more, htext.symm⟩
    have hrhs : within <+: text.toList := ⟨after, hother.symm⟩
    obtain hle | ⟨rest, rfl⟩ := List.prefix_or_prefix_of_prefix hlhs hrhs
    . exact hle
    . -- There is nothing between two boundaries at one offset
      rw [hbefore, hwithin, Utf8.encode_append, List.length_append] at h
      have hrest : rest = [] := by
        rw [← Utf8.length_encode_eq_zero_iff]
        omega
      simp [hrest]
  obtain ⟨covered, rfl⟩ := hprefix
  have hcount : token.stop - token.start = (Utf8.encode covered).length := by
    rw [hbefore, hwithin, Utf8.encode_append, List.length_append]
    omega
  refine ⟨.ofList covered, ?_⟩
  rw [Token.text?, hcount, hbefore, hother, List.append_assoc, Utf8.drop?_length_encode]
  simp

namespace Track

theorem passed_follow_initial (chars : List Char) (moves : List Move) :
    (Reader.follow { rest := chars : Track } moves).passed = min (Move.passed moves) chars.length := by
  have hwithin := (Within.initial chars).follow moves
  have hpassed := hwithin.passed
  have hahead := Reader.ahead_follow { rest := chars : Track } moves
  have hlength := congrArg List.length (hwithin.rest.symm.trans hahead)
  rw [List.length_drop, List.length_drop] at hlength
  have hchars : (Reader.ahead { rest := chars : Track }).length = chars.length := rfl
  omega

end Track

namespace ByteReader

theorem position_follow (bytes : List UInt8) (origin : Nat) (moves : List Move) :
    (Reader.follow (⟨bytes, origin, origin, none⟩ : ByteReader) moves).position
      =
    (⟨bytes, origin, origin, none⟩ : ByteReader).offsetBehind (Move.passed moves) := by
  have hlength : (Utf8.chars bytes).length = (Utf8.pieces bytes).length := by
    rw [Utf8.chars, List.length_map]
  rw [((tracks_start bytes origin).follow moves).position, Track.passed_follow_initial, hlength,
    Utf8.offset, ← List.take_eq_take_min]
  rfl

variable {reader : ByteReader}

theorem offsetBehind_zero : reader.offsetBehind 0 = reader.position := rfl

theorem offsetBehind_le {fewer count : Nat} (h : fewer ≤ count) :
    reader.offsetBehind fewer ≤ reader.offsetBehind count := by
  apply Nat.add_le_add_left
  apply Utf8.offset_le h

theorem offsetBehind_le_length (reader : ByteReader) (count : Nat) :
    reader.offsetBehind count ≤ reader.position + reader.rest.length := by
  apply Nat.add_le_add_left
  apply Utf8.offset_pieces_le

theorem offsetBehind_lt {before text after : List Char}
    (h : Reader.ahead reader = before ++ (text ++ after)) (htext : text ≠ []) :
    reader.offsetBehind before.length < reader.offsetBehind (before.length + text.length) := by
  apply Nat.add_lt_add_left
  rw [Utf8.offset_add, ← Utf8.pieces_drop_offset]
  apply Nat.lt_add_of_pos_right
  apply Utf8.offset_pos
  . intro hnil
    have hchars := Utf8.chars_drop_offset reader.rest before.length
    rw [show Utf8.chars reader.rest = _ from h, List.drop_left, hnil] at hchars
    exact htext (List.append_eq_nil_iff.1 hchars.symm).1
  . exact List.length_pos_iff.2 htext

theorem offsetBehind_add_of_isPlain {before text after : List Char}
    (h : Reader.ahead reader = before ++ (text ++ after)) (htext : ∀ char ∈ text, Utf8.IsPlain char) :
    reader.offsetBehind (before.length + text.length)
      =
    reader.offsetBehind before.length + text.length := by
  let passed := Utf8.offset (Utf8.pieces reader.rest) before.length
  have hrest : text <+: Utf8.chars (reader.rest.drop passed) := by
    have hchars := Utf8.chars_drop_offset reader.rest before.length
    rw [show Utf8.chars reader.rest = _ from h, List.drop_left] at hchars
    exact ⟨after, hchars.symm⟩
  obtain ⟨more, hmore⟩ := (Utf8.isPrefix_chars_iff htext).1 hrest
  rw [offsetBehind, offsetBehind, Utf8.offset_add, ← Utf8.pieces_drop_offset, ← hmore,
    Utf8.offset_pieces_encode_append, Utf8.length_encode_of_isPlain htext, Nat.add_assoc]

theorem isPrefix_drop_offsetBehind {source : List UInt8} {offset : Nat} {before text after : List Char}
    (h : Reader.ahead (ofBytes source offset) = before ++ (text ++ after))
    (htext : ∀ char ∈ text, Utf8.IsPlain char) :
    Utf8.encode text <+: source.drop ((ofBytes source offset).offsetBehind before.length) := by
  have hahead := ahead_ofBytes_position_add source offset before.length
  dsimp only at hahead
  rw [h, List.drop_left] at hahead
  rw [← rest_ofBytes, ← Utf8.isPrefix_chars_iff htext]
  exact ⟨after, hahead.symm⟩

theorem exists_offsets {bytes : List UInt8} {origin : Nat} {moves : List Move} (h : .mark ∈ moves)
    (kind : TokenKind) :
    let reader : ByteReader := ⟨bytes, origin, origin, none⟩
    let last := Reader.follow reader moves
    ∃ start stop passed, start ≤ stop ∧ stop ≤ passed ∧
      last.mark? = some (reader.offsetBehind stop) ∧
      last.token kind = ⟨kind, reader.offsetBehind start, reader.offsetBehind stop⟩ ∧
      last.position = reader.offsetBehind passed := by
  intro reader last
  have htracks := (tracks_start bytes origin).follow moves
  have hwithin := (Track.Within.initial (Utf8.chars bytes)).follow moves
  obtain ⟨stop, hstop⟩ := Option.ne_none_iff_exists'.1
    (Track.mark?_follow_ne_none h { rest := Utf8.chars bytes })
  have hmark : last.mark? = some (reader.offsetBehind stop) := by
    have hmark := htracks.mark?
    rw [hstop] at hmark
    exact hmark
  let first := (Reader.follow { rest := Utf8.chars bytes : Track } moves).start
  have hstart : min last.start (reader.offsetBehind stop) = reader.offsetBehind (min first stop) := by
    rw [htracks.start, offsetBehind, Nat.add_min_add_left, Utf8.min_offset]
    rfl
  refine ⟨min first stop, stop, _, Nat.min_le_right _ stop, hwithin.mark? stop hstop, hmark, ?_,
    htracks.position⟩
  rw [token, hmark, Option.getD_some, hstart]

theorem isBoundary_offsetBehind {text : String} {offset : Nat}
    (h : Utf8.IsBoundary text (min offset (Utf8.encode text.toList).length)) (count : Nat) :
    Utf8.IsBoundary text ((ofString text offset).offsetBehind count) := by
  obtain ⟨before, after, htext, hoffset⟩ := h
  have htracks := tracks_ofString htext hoffset
  have hrest : Utf8.pieces (ofString text offset).rest = Utf8.pieces (Utf8.encode after) :=
    htracks.pieces_rest
  have hposition : (ofString text offset).position = (Utf8.encode before).length := htracks.position
  refine ⟨before ++ after.take count, after.drop count, ?_, ?_⟩
  . rw [List.append_assoc, List.take_append_drop, htext]
  . rw [offsetBehind, hrest, hposition, Utf8.offset_pieces_encode, Utf8.encode_append,
      List.length_append]

end ByteReader

end Offside
