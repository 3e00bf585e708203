/-!
This module contains UTF-8 as a code: how a text is written as bytes and how any bytes at all are
read as characters. Bytes that are no valid sequence read as the replacement character, one for
each longest run of bytes that starts a valid sequence. A written text is read back.
-/

namespace Offside

namespace Utf8

def encode (chars : List Char) : List UInt8 :=
  chars.flatMap String.utf8EncodeChar

@[simp]
theorem encode_nil : encode [] = [] := rfl

@[simp]
theorem encode_cons (char : Char) (chars : List Char) :
    encode (char :: chars) = String.utf8EncodeChar char ++ encode chars := rfl

@[simp]
theorem encode_append (lhs rhs : List Char) : encode (lhs ++ rhs) = encode lhs ++ encode rhs := by
  simp [encode]

def replacement : Char := '\uFFFD'

structure Piece where
  char : Char
  width : Nat
  deriving DecidableEq

structure Lead where
  bits : Nat
  low : Nat
  high : Nat
  more : Nat

/--
The bounds on the second byte leave out overlong sequences, surrogates and values above `10FFFF`.
-/
def lead? (byte : Nat) : Option Lead :=
  if byte < 0xc2 then none
  else if byte < 0xe0 then some ⟨byte % 32, 0x80, 0xbf, 1⟩
  else if byte < 0xf0 then
    some ⟨byte % 16, if byte = 0xe0 then 0xa0 else 0x80, if byte = 0xed then 0x9f else 0xbf, 2⟩
  else if byte < 0xf5 then
    some ⟨byte % 8, if byte = 0xf0 then 0x90 else 0x80, if byte = 0xf4 then 0x8f else 0xbf, 3⟩
  else none

def decode (byte : UInt8) (bytes : List UInt8) : Piece :=
  if byte.toNat < 0x80 then
    ⟨.ofNat byte.toNat, 1⟩
  else
    match lead? byte.toNat with
    | none => ⟨replacement, 1⟩
    | some ⟨bits, low, high, more⟩ => go low high more bits 1 bytes
where
  go (low high : Nat) : (more value width : Nat) → List UInt8 → Piece
    | 0, value, width, _ => ⟨.ofNat value, width⟩
    | _ + 1, _, width, [] => ⟨replacement, width⟩
    | more + 1, value, width, byte :: bytes =>
      if low ≤ byte.toNat ∧ byte.toNat ≤ high then
        go 0x80 0xbf more (value * 64 + byte.toNat % 64) (width + 1) bytes
      else
        ⟨replacement, width⟩

theorem decode.go_width_bounds (low high more value width : Nat) (bytes : List UInt8) :
    width ≤ (go low high more value width bytes).width ∧
      (go low high more value width bytes).width ≤ width + min more bytes.length := by
  induction bytes generalizing low high more value width with
  | nil => cases more <;> simp [go]
  | cons byte bytes ih =>
    cases more with
    | zero => simp [go]
    | succ more =>
      have := ih 0x80 0xbf more (value * 64 + byte.toNat % 64) (width + 1)
      simp only [go, List.length_cons]
      split <;> grind

theorem Lead.more_le_three {byte : Nat} {lead : Lead} (h : lead? byte = some lead) :
    lead.more ≤ 3 := by
  unfold lead? at h
  grind

theorem one_le_width_decode (byte : UInt8) (bytes : List UInt8) : 1 ≤ (decode byte bytes).width := by
  unfold decode
  split
  . simp
  . split
    . simp
    . apply (decode.go_width_bounds ..).1

theorem width_decode_le_length (byte : UInt8) (bytes : List UInt8) :
    (decode byte bytes).width ≤ (byte :: bytes).length := by
  unfold decode
  split
  . simp
  . split
    . simp
    . next bits low high more _ =>
      have := (decode.go_width_bounds low high more bits 1 bytes).2
      simp only [List.length_cons]
      omega

theorem width_decode_le_four (byte : UInt8) (bytes : List UInt8) :
    (decode byte bytes).width ≤ 4 := by
  unfold decode
  split
  . simp
  . split
    . simp
    . next bits low high more h =>
      have := (decode.go_width_bounds low high more bits 1 bytes).2
      have := Lead.more_le_three h
      dsimp at this
      omega

theorem decode_encodeChar_append (char : Char) (bytes : List UInt8) :
    ∃ byte rest, String.utf8EncodeChar char = byte :: rest ∧
      decode byte (rest ++ bytes) = ⟨char, char.utf8Size⟩ := by
  have hsize : char.utf8Size = (String.utf8EncodeChar char).length := by simp
  have hchar : Char.ofNat char.val.toNat = char := Char.ofNat_toNat char
  have hvalid : char.val.toNat < 0xd800 ∨ 0xdfff < char.val.toNat ∧ char.val.toNat < 0x110000 :=
    char.valid
  have hof (n : Nat) (h : n < 256) : (UInt8.ofNat n).toNat = n := by simp; omega
  rw [hsize]
  unfold String.utf8EncodeChar
  generalize char.val.toNat = v at *
  dsimp only
  split
  . refine ⟨_, _, rfl, ?_⟩
    grind [decode]
  . split
    . refine ⟨_, _, rfl, ?_⟩
      grind [decode, decode.go, lead?]
    . have hlow := hof (v % 64 + 128) (by omega)
      have hmid := hof (v / 64 % 64 + 128) (by omega)
      split
      . have hlead := hof (v / 4096 % 16 + 224) (by omega)
        have hvalue : ((v / 4096 % 16 + 224) % 16 * 64 + (v / 64 % 64 + 128) % 64) * 64 +
            (v % 64 + 128) % 64 = v := by omega
        refine ⟨_, _, rfl, ?_⟩
        simp only [decode, lead?, hlead]
        rw [if_neg (by omega), if_neg (by omega), if_neg (by omega), if_pos (by omega)]
        simp only [List.cons_append, List.nil_append, decode.go, hlow, hmid]
        rw [if_pos (by grind), if_pos (by omega), hvalue, hchar]
        rfl
      . have hhigh := hof (v / 4096 % 64 + 128) (by omega)
        have hlead := hof (v / 262144 % 8 + 240) (by omega)
        have hvalue : (((v / 262144 % 8 + 240) % 8 * 64 + (v / 4096 % 64 + 128) % 64) * 64 +
            (v / 64 % 64 + 128) % 64) * 64 + (v % 64 + 128) % 64 = v := by omega
        refine ⟨_, _, rfl, ?_⟩
        simp only [decode, lead?, hlead]
        rw [if_neg (by omega), if_neg (by omega), if_neg (by omega), if_neg (by omega),
          if_pos (by omega)]
        simp only [List.cons_append, List.nil_append, decode.go, hlow, hmid, hhigh]
        rw [if_pos (by grind), if_pos (by omega), if_pos (by omega), hvalue, hchar]
        rfl

def pieces (bytes : List UInt8) : List Piece :=
  go 0 bytes
where
  -- The first bytes may belong to a character that was read already
  go : (skip : Nat) → List UInt8 → List Piece
    | _, [] => []
    | skip + 1, _ :: bytes => go skip bytes
    | 0, byte :: bytes =>
      let piece := decode byte bytes
      piece :: go (piece.width - 1) bytes

theorem pieces.go_eq (skip : Nat) (bytes : List UInt8) : go skip bytes = pieces (bytes.drop skip) := by
  induction bytes generalizing skip with
  | nil => simp [go, pieces]
  | cons byte bytes ih =>
    cases skip with
    | zero => rfl
    | succ skip => simp [go, ih]

@[simp]
theorem pieces_nil : pieces [] = [] := rfl

theorem pieces_cons (byte : UInt8) (bytes : List UInt8) :
    pieces (byte :: bytes) =
      decode byte bytes :: pieces ((byte :: bytes).drop (decode byte bytes).width) := by
  obtain ⟨width, h⟩ := Nat.exists_eq_add_of_le' (one_le_width_decode byte bytes)
  rw [pieces, pieces.go, pieces.go_eq, h]
  rfl

def size (pieces : List Piece) : Nat :=
  pieces.foldr (fun piece size => piece.width + size) 0

@[simp]
theorem size_nil : size [] = 0 := rfl

@[simp]
theorem size_cons (piece : Piece) (pieces : List Piece) :
    size (piece :: pieces) = piece.width + size pieces := rfl

theorem size_pieces (bytes : List UInt8) : size (pieces bytes) = bytes.length := by
  induction hlength : bytes.length using Nat.strongRecOn generalizing bytes with
  | ind length ih =>
    cases bytes with
    | nil => rw [← hlength]; rfl
    | cons byte bytes =>
      have hle := width_decode_le_length byte bytes
      have hpos := one_le_width_decode byte bytes
      have hdrop := List.length_drop (l := byte :: bytes) (i := (decode byte bytes).width)
      rw [pieces_cons, size_cons, ih _ (by omega) _ hdrop]
      omega

def chars (bytes : List UInt8) : List Char :=
  (pieces bytes).map Piece.char

@[simp]
theorem chars_nil : chars [] = [] := rfl

theorem chars_cons (byte : UInt8) (bytes : List UInt8) :
    chars (byte :: bytes) =
      (decode byte bytes).char :: chars ((byte :: bytes).drop (decode byte bytes).width) := by
  simp [chars, pieces_cons]

theorem pieces_encodeChar_append (char : Char) (bytes : List UInt8) :
    pieces (String.utf8EncodeChar char ++ bytes) = ⟨char, char.utf8Size⟩ :: pieces bytes := by
  obtain ⟨byte, rest, hchar, hdecode⟩ := decode_encodeChar_append char bytes
  have hsize : char.utf8Size = (byte :: rest).length := by
    rw [← hchar, String.length_utf8EncodeChar]
  rw [hchar, List.cons_append, pieces_cons, hdecode, hsize, ← List.cons_append, List.drop_left]

theorem chars_encode_append (chars : List Char) (bytes : List UInt8) :
    Utf8.chars (encode chars ++ bytes) = chars ++ Utf8.chars bytes := by
  induction chars with
  | nil => rfl
  | cons char chars ih =>
    rw [encode_cons, List.append_assoc, Utf8.chars, pieces_encodeChar_append, List.map_cons,
      List.cons_append, ← ih]
    rfl

@[simp]
theorem chars_encode (chars : List Char) : Utf8.chars (encode chars) = chars := by
  simpa using chars_encode_append chars []

def drop? : (count : Nat) → List Char → Option (List Char)
  | 0, chars => some chars
  | _ + 1, [] => none
  | count + 1, char :: chars =>
    if char.utf8Size ≤ count + 1 then drop? (count + 1 - char.utf8Size) chars else none

def take? : (count : Nat) → List Char → Option (List Char)
  | 0, _ => some []
  | _ + 1, [] => none
  | count + 1, char :: chars =>
    if char.utf8Size ≤ count + 1 then (take? (count + 1 - char.utf8Size) chars).map (char :: ·)
    else none

theorem drop?_utf8Size_add (char : Char) (count : Nat) (chars : List Char) :
    drop? (char.utf8Size + count) (char :: chars) = drop? count chars := by
  obtain ⟨more, h⟩ := Nat.exists_eq_add_of_le' (Nat.le_add_right_of_le char.utf8Size_pos)
  rw [h, drop?, if_pos (by omega), show more + 1 - char.utf8Size = count by omega]

theorem take?_utf8Size_add (char : Char) (count : Nat) (chars : List Char) :
    take? (char.utf8Size + count) (char :: chars) = (take? count chars).map (char :: ·) := by
  obtain ⟨more, h⟩ := Nat.exists_eq_add_of_le' (Nat.le_add_right_of_le char.utf8Size_pos)
  rw [h, take?, if_pos (by omega), show more + 1 - char.utf8Size = count by omega]

@[simp]
theorem drop?_length_encode (lhs rhs : List Char) :
    drop? (encode lhs).length (lhs ++ rhs) = some rhs := by
  induction lhs with
  | nil => simp [drop?]
  | cons char lhs ih => simp [drop?_utf8Size_add, ih]

@[simp]
theorem take?_length_encode (lhs rhs : List Char) :
    take? (encode lhs).length (lhs ++ rhs) = some lhs := by
  induction lhs with
  | nil => simp [take?]
  | cons char lhs ih => simp [take?_utf8Size_add, ih]

end Utf8

end Offside
