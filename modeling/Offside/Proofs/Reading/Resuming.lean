import Offside.Proofs.Reading.Track

/-!
This module contains the proof that a reader goes on where another one has stopped between two
characters, and that characters of seven bits are read from nothing but their own bytes.
-/

namespace Offside

namespace Utf8

theorem drop_offset_cons {byte : UInt8} {bytes : List UInt8} (count : Nat) :
    (byte :: bytes).drop (offset (pieces (byte :: bytes)) (count + 1))
      =
    ((byte :: bytes).drop (decode byte bytes).width).drop
      (offset (pieces ((byte :: bytes).drop (decode byte bytes).width)) count) := by
  rw [pieces_cons, offset, List.take_succ_cons, size_cons, List.drop_drop]
  rfl

theorem pieces_drop_offset (bytes : List UInt8) (count : Nat) :
    pieces (bytes.drop (offset (pieces bytes) count)) = (pieces bytes).drop count := by
  induction count generalizing bytes with
  | zero => rfl
  | succ count ih =>
    cases bytes with
    | nil => simp
    | cons byte bytes => rw [drop_offset_cons, ih, pieces_cons, List.drop_succ_cons]

theorem chars_drop_offset (bytes : List UInt8) (count : Nat) :
    chars (bytes.drop (offset (pieces bytes) count)) = (chars bytes).drop count := by
  rw [chars, pieces_drop_offset, List.map_drop]
  rfl

theorem offset_pieces_le (bytes : List UInt8) (count : Nat) :
    offset (pieces bytes) count ≤ bytes.length := by
  have hsize := size_append ((pieces bytes).take count) ((pieces bytes).drop count)
  rw [List.take_append_drop, size_pieces] at hsize
  rw [offset, hsize]
  apply Nat.le_add_right

theorem pieces_encode_append (text : List Char) (bytes : List UInt8) :
    pieces (encode text ++ bytes) = text.map pieceOf ++ pieces bytes := by
  induction text with
  | nil => rfl
  | cons char text ih =>
    rw [encode_cons, List.append_assoc, pieces_encodeChar_append, ih, List.map_cons, List.cons_append,
      pieceOf]

theorem offset_pieces_encode_append (text : List Char) (bytes : List UInt8) :
    offset (pieces (encode text ++ bytes)) text.length = (encode text).length := by
  have hlength : text.length = (text.map pieceOf).length := by
    rw [List.length_map]
  rw [offset, pieces_encode_append, hlength, List.take_left, size_map_pieceOf]

def IsPlain (char : Char) : Prop :=
  0 < char.toNat ∧ char.toNat < 0x80

instance (char : Char) : Decidable (IsPlain char) :=
  inferInstanceAs (Decidable (_ ∧ _))

theorem isPlain_of_all {text : List Char} (h : text.all (IsPlain ·) = true) :
    ∀ char ∈ text, IsPlain char := by
  simpa using h

theorem not_isPlain_ofNat {value : Nat} (h : 0x80 ≤ value) : ¬ IsPlain (.ofNat value) := by
  rintro ⟨hpos, hlt⟩
  by_cases hvalid : value.isValidChar
  . rw [Char.ofNat, dif_pos hvalid] at hlt
    have hvalue : (Char.ofNatAux value hvalid).toNat = value := rfl
    omega
  . rw [Char.ofNat, dif_neg hvalid] at hpos
    contradiction

theorem not_isPlain_replacement : ¬ IsPlain replacement := by
  decide

theorem decode.not_isPlain_go {low high more value width : Nat} {bytes : List UInt8}
    (h : 0x80 ≤ value ∨ 2 ≤ value ∧ 0 < more ∨
      (1 ≤ value ∨ 0x90 ≤ low ∧ high ≤ 0xbf) ∧ 1 < more) :
    ¬ IsPlain (go low high more value width bytes).char := by
  -- Bits of the character that are set at some point stay set, as each byte adds six lower ones
  induction bytes generalizing low high more value width with
  | nil =>
    cases more with
    | zero =>
      apply not_isPlain_ofNat
      omega
    | succ more => exact not_isPlain_replacement
  | cons byte bytes ih =>
    cases more with
    | zero =>
      apply not_isPlain_ofNat
      omega
    | succ more =>
      rw [go]
      split
      . apply ih
        omega
      . exact not_isPlain_replacement

theorem Lead.bounds {byte : Nat} {lead : Lead} (h : lead? byte = some lead) :
    2 ≤ lead.bits ∧ 0 < lead.more ∨
      (1 ≤ lead.bits ∨ 0x90 ≤ lead.low ∧ lead.high ≤ 0xbf) ∧ 1 < lead.more := by
  unfold lead? at h
  grind

theorem decode_of_isPlain {byte : UInt8} {bytes : List UInt8} (h : IsPlain (decode byte bytes).char) :
    byte.toNat < 0x80 ∧ decode byte bytes = ⟨.ofNat byte.toNat, 1⟩ := by
  unfold decode at h ⊢
  split at h
  . next hlt => exact ⟨hlt, if_pos hlt⟩
  . split at h
    . exact absurd h not_isPlain_replacement
    . next bits low high more hlead =>
      exact absurd h (decode.not_isPlain_go (.inr (Lead.bounds hlead)))

theorem encodeChar_of_isPlain {byte : UInt8} {bytes : List UInt8}
    (h : IsPlain (decode byte bytes).char) :
    String.utf8EncodeChar (decode byte bytes).char = [byte] := by
  obtain ⟨hlt, hdecode⟩ := decode_of_isPlain h
  have hvalid : byte.toNat.isValidChar := by
    apply Or.inl
    omega
  have hvalue : (Char.ofNat byte.toNat).val.toNat = byte.toNat := by
    rw [Char.ofNat, dif_pos hvalid]
    rfl
  rw [hdecode, String.utf8EncodeChar]
  dsimp only
  rw [hvalue, if_pos (Nat.le_of_lt_succ hlt), UInt8.ofNat_toNat]

theorem isPrefix_chars_of_encode {text : List Char} {bytes : List UInt8} (h : encode text <+: bytes) :
    text <+: chars bytes := by
  obtain ⟨rest, rfl⟩ := h
  rw [chars_encode_append]
  apply List.prefix_append

theorem isPrefix_chars_iff {text : List Char} {bytes : List UInt8}
    (h : ∀ char ∈ text, IsPlain char) : text <+: chars bytes ↔ encode text <+: bytes := by
  refine ⟨?_, isPrefix_chars_of_encode⟩
  intro htext
  induction text generalizing bytes with
  | nil => exact List.nil_prefix
  | cons char text ih =>
    rw [List.forall_mem_cons] at h
    cases bytes with
    | nil => simp at htext
    | cons byte bytes =>
      rw [chars_cons, List.cons_prefix_cons] at htext
      obtain ⟨rfl, htext⟩ := htext
      have hdecode := (decode_of_isPlain h.1).2
      rw [hdecode, List.drop_one, List.tail_cons] at htext
      rw [encode_cons, encodeChar_of_isPlain h.1, List.singleton_append, List.cons_prefix_cons]
      exact ⟨rfl, ih h.2 htext⟩

theorem length_encode_of_isPlain {text : List Char} (h : ∀ char ∈ text, IsPlain char) :
    (encode text).length = text.length := by
  induction text with
  | nil => rfl
  | cons char text ih =>
    rw [List.forall_mem_cons] at h
    have hsize : char.utf8Size = 1 := Char.utf8Size_eq_one_iff.2 (Nat.le_of_lt_succ h.1.2)
    rw [encode_cons, List.length_append, String.length_utf8EncodeChar, hsize, ih h.2, List.length_cons,
      Nat.add_comm]

end Utf8

namespace ByteReader

variable (source : List UInt8) (offset count : Nat)

theorem rest_ofBytes : (ofBytes source offset).rest = source.drop offset := by
  cases Nat.le_total offset source.length with
  | inl h => rw [ofBytes, Nat.min_eq_left h]
  | inr h => rw [ofBytes, Nat.min_eq_right h, List.drop_length, List.drop_eq_nil_of_le h]

theorem ofBytes_position_add :
    let reader := ofBytes source offset
    let passed := Utf8.offset (Utf8.pieces reader.rest) count
    ofBytes source (reader.position + passed)
      =
    ⟨reader.rest.drop passed, reader.position + passed, reader.position + passed, none⟩ := by
  intro reader passed
  have hpassed : passed ≤ (source.drop (min offset source.length)).length :=
    Utf8.offset_pieces_le _ _
  have hmin : min (reader.position + passed) source.length = reader.position + passed := by
    rw [List.length_drop] at hpassed
    simp only [reader, ofBytes]
    omega
  rw [ofBytes, hmin]
  simp only [reader, ofBytes, List.drop_drop]

theorem ahead_ofBytes_position_add :
    let reader := ofBytes source offset
    let passed := Utf8.offset (Utf8.pieces reader.rest) count
    Reader.ahead (ofBytes source (reader.position + passed)) = (Reader.ahead reader).drop count := by
  intro reader passed
  have hreader := ofBytes_position_add source offset count
  dsimp only at hreader
  rw [hreader]
  apply Utf8.chars_drop_offset

end ByteReader

end Offside
