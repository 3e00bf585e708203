import Offside.Utf8

/-!
This module contains the proof that any bytes at all are read as the pieces that they fall into: the
codes of characters, and the longest starts of codes wherever no code is complete.
-/

namespace Offside

namespace Utf8

def StartsCode (bytes : List UInt8) : Prop :=
  ∃ char, bytes <+: String.utf8EncodeChar char

/--
What the first piece of some bytes is. Where no code is complete, it is the longest start of a code, or
a single byte that no code starts with, and is read as the replacement character.
-/
inductive IsFirst (bytes : List UInt8) : Piece → Prop
  | code {char : Char} (h : String.utf8EncodeChar char <+: bytes) :
    IsFirst bytes ⟨char, char.utf8Size⟩
  | damaged {width : Nat} (hpos : 1 ≤ width) (hle : width ≤ bytes.length)
    (hcode : ∀ char, ¬ String.utf8EncodeChar char <+: bytes)
    (hstarts : width = 1 ∨ StartsCode (bytes.take width))
    (hlongest : ∀ longer, width < longer → longer ≤ bytes.length →
      ¬ StartsCode (bytes.take longer)) :
    IsFirst bytes ⟨replacement, width⟩

def Continues (low high : Nat) : List UInt8 → Prop
  | [] => True
  | byte :: bytes => low ≤ byte.toNat ∧ byte.toNat ≤ high ∧ Continues 0x80 0xbf bytes

variable {low high more value width : Nat} {byte next : UInt8} {bytes rest : List UInt8}

theorem decode.go_of_end (h : Continues low high bytes) (hlength : bytes.length < more) :
    go low high more value width bytes = ⟨replacement, width + bytes.length⟩ := by
  induction bytes generalizing low high more value width with
  | nil =>
    cases more with
    | zero => contradiction
    | succ more => rfl
  | cons byte bytes ih =>
    cases more with
    | zero => contradiction
    | succ more =>
      rw [go, if_pos ⟨h.1, h.2.1⟩, ih h.2.2 (Nat.lt_of_succ_lt_succ hlength), List.length_cons,
        Nat.add_assoc, Nat.add_comm 1]

theorem decode.go_of_not_continues (h : Continues low high bytes) (hlength : bytes.length < more)
    (hnext : ¬ Continues low high (bytes ++ [next])) :
    go low high more value width (bytes ++ next :: rest) = ⟨replacement, width + bytes.length⟩ := by
  induction bytes generalizing low high more value width with
  | nil =>
    cases more with
    | zero => contradiction
    | succ more =>
      rw [List.nil_append, go, if_neg]
      . rfl
      . intro hbounds
        exact hnext ⟨hbounds.1, hbounds.2, trivial⟩
  | cons byte bytes ih =>
    cases more with
    | zero => contradiction
    | succ more =>
      have hrest : ¬ Continues 0x80 0xbf (bytes ++ [next]) := by
        intro hrest
        exact hnext ⟨h.1, h.2.1, hrest⟩
      rw [List.cons_append, go, if_pos ⟨h.1, h.2.1⟩, ih h.2.2 (Nat.lt_of_succ_lt_succ hlength) hrest,
        List.length_cons, Nat.add_assoc, Nat.add_comm 1]

theorem exists_continues (low high more : Nat) (bytes : List UInt8) :
    ∃ taken rest, bytes = taken ++ rest ∧ Continues low high taken ∧
      (taken.length = more ∨ taken.length < more ∧
        ∀ next ∈ rest.head?, ¬ Continues low high (taken ++ [next])) := by
  induction more generalizing low high bytes with
  | zero => exact ⟨[], bytes, rfl, trivial, .inl rfl⟩
  | succ more ih =>
    cases bytes with
    | nil => exact ⟨[], [], rfl, trivial, .inr ⟨by simp, by simp⟩⟩
    | cons byte bytes =>
      by_cases hbyte : low ≤ byte.toNat ∧ byte.toNat ≤ high
      . obtain ⟨taken, rest, rfl, htaken, hlength⟩ := ih 0x80 0xbf bytes
        refine ⟨byte :: taken, rest, rfl, ⟨hbyte.1, hbyte.2, htaken⟩, ?_⟩
        obtain hlength | ⟨hlength, hnext⟩ := hlength
        . exact .inl (congrArg Nat.succ hlength)
        . refine .inr ⟨Nat.succ_lt_succ hlength, ?_⟩
          intro next hmem hcontinues
          exact hnext next hmem hcontinues.2.2
      . refine ⟨[], byte :: bytes, rfl, trivial, .inr ⟨Nat.succ_pos _, ?_⟩⟩
        intro next hmem hcontinues
        obtain rfl := Option.some.inj hmem
        exact hbyte ⟨hcontinues.1, hcontinues.2.1⟩

theorem exists_completion (hlow : low ≤ high) (hhigh : high < 256) (h : Continues low high bytes)
    (hlength : bytes.length ≤ more) :
    ∃ last, Continues low high (bytes ++ last) ∧ (bytes ++ last).length = more := by
  induction more generalizing low high bytes with
  | zero =>
    refine ⟨[], ?_, ?_⟩
    . rw [List.append_nil]
      exact h
    . rw [List.append_nil]
      exact Nat.le_zero.1 hlength
  | succ more ih =>
    cases bytes with
    | nil =>
      obtain ⟨last, hlast, hmore⟩ := @ih 0x80 0xbf [] (by decide) (by decide) trivial (Nat.zero_le _)
      have hbyte : (UInt8.ofNat low).toNat = low := by
        apply UInt8.toNat_ofNat_of_lt'
        exact Nat.lt_of_le_of_lt hlow hhigh
      refine ⟨.ofNat low :: last, ⟨?_, ?_, hlast⟩, congrArg Nat.succ hmore⟩
      . exact Nat.le_of_eq hbyte.symm
      . rw [hbyte]
        exact hlow
    | cons byte bytes =>
      obtain ⟨last, hlast, hmore⟩ := @ih 0x80 0xbf bytes (by decide) (by decide) h.2.2
        (Nat.le_of_succ_le_succ hlength)
      exact ⟨last, ⟨h.1, h.2.1, hlast⟩, congrArg Nat.succ hmore⟩

theorem exists_char_of_isValidChar (h : value.isValidChar) : ∃ char : Char, char.val.toNat = value := by
  refine ⟨.ofNat value, ?_⟩
  rw [Char.ofNat, dif_pos h]
  rfl

theorem Lead.le_of_lead? {byte : Nat} {lead : Lead} (h : lead? byte = some lead) :
    lead.low ≤ lead.high ∧ lead.high < 256 := by
  unfold lead? at h
  grind

theorem ofNat_eq_of_eq_toNat (h : value = byte.toNat) : UInt8.ofNat value = byte := by
  rw [h, UInt8.ofNat_toNat]

variable {second third fourth : UInt8}

theorem exists_encodeChar_eq_two (hbyte : 0xc2 ≤ byte.toNat ∧ byte.toNat < 0xe0)
    (h : Continues 0x80 0xbf [second]) :
    ∃ char, String.utf8EncodeChar char = [byte, second] := by
  obtain ⟨hlow, hhigh, _⟩ := h
  obtain ⟨char, hchar⟩ := @exists_char_of_isValidChar
    (byte.toNat % 32 * 64 + second.toNat % 64) (.inl (by omega))
  refine ⟨char, ?_⟩
  unfold String.utf8EncodeChar
  dsimp only
  rw [hchar, if_neg (by omega), if_pos (by omega), List.cons.injEq, List.cons.injEq]
  refine ⟨?_, ?_, rfl⟩
  . apply ofNat_eq_of_eq_toNat
    omega
  . apply ofNat_eq_of_eq_toNat
    omega

theorem exists_encodeChar_eq_three (hbyte : 0xe0 ≤ byte.toNat ∧ byte.toNat < 0xf0)
    (h : Continues (if byte.toNat = 0xe0 then 0xa0 else 0x80) (if byte.toNat = 0xed then 0x9f else 0xbf)
      [second, third]) :
    ∃ char, String.utf8EncodeChar char = [byte, second, third] := by
  obtain ⟨hlow, hhigh, hthird, hthird', _⟩ := h
  -- The bounds of the second byte leave out short codes and surrogates
  have hsecond : 0x80 ≤ second.toNat ∧ second.toNat ≤ 0xbf ∧
      (byte.toNat = 0xe0 → 0xa0 ≤ second.toNat) ∧ (byte.toNat = 0xed → second.toNat ≤ 0x9f) := by
    grind
  obtain ⟨char, hchar⟩ := @exists_char_of_isValidChar
    ((byte.toNat % 16 * 64 + second.toNat % 64) * 64 + third.toNat % 64) (by
      unfold Nat.isValidChar
      omega)
  refine ⟨char, ?_⟩
  unfold String.utf8EncodeChar
  dsimp only
  rw [hchar, if_neg (by omega), if_neg (by omega), if_pos (by omega), List.cons.injEq,
    List.cons.injEq, List.cons.injEq]
  refine ⟨?_, ?_, ?_, rfl⟩
  . apply ofNat_eq_of_eq_toNat
    omega
  . apply ofNat_eq_of_eq_toNat
    omega
  . apply ofNat_eq_of_eq_toNat
    omega

theorem exists_encodeChar_eq_four (hbyte : 0xf0 ≤ byte.toNat ∧ byte.toNat < 0xf5)
    (h : Continues (if byte.toNat = 0xf0 then 0x90 else 0x80) (if byte.toNat = 0xf4 then 0x8f else 0xbf)
      [second, third, fourth]) :
    ∃ char, String.utf8EncodeChar char = [byte, second, third, fourth] := by
  obtain ⟨hlow, hhigh, hthird, hthird', hfourth, hfourth', _⟩ := h
  have hsecond : 0x80 ≤ second.toNat ∧ second.toNat ≤ 0xbf ∧
      (byte.toNat = 0xf0 → 0x90 ≤ second.toNat) ∧ (byte.toNat = 0xf4 → second.toNat ≤ 0x8f) := by
    grind
  obtain ⟨char, hchar⟩ := @exists_char_of_isValidChar
    (((byte.toNat % 8 * 64 + second.toNat % 64) * 64 + third.toNat % 64) * 64 +
      fourth.toNat % 64) (by
      unfold Nat.isValidChar
      omega)
  refine ⟨char, ?_⟩
  unfold String.utf8EncodeChar
  dsimp only
  rw [hchar, if_neg (by omega), if_neg (by omega), if_neg (by omega), List.cons.injEq,
    List.cons.injEq, List.cons.injEq, List.cons.injEq]
  refine ⟨?_, ?_, ?_, ?_, rfl⟩
  . apply ofNat_eq_of_eq_toNat
    omega
  . apply ofNat_eq_of_eq_toNat
    omega
  . apply ofNat_eq_of_eq_toNat
    omega
  . apply ofNat_eq_of_eq_toNat
    omega

theorem exists_encodeChar_eq {lead : Lead} (hlead : lead? byte.toNat = some lead)
    (h : Continues lead.low lead.high bytes) (hlength : bytes.length = lead.more) :
    ∃ char, String.utf8EncodeChar char = byte :: bytes := by
  unfold lead? at hlead
  split at hlead
  . contradiction
  . split at hlead
    . obtain rfl := Option.some.inj hlead
      match bytes, hlength with
      | [second], _ => exact exists_encodeChar_eq_two (by omega) h
    . split at hlead
      . obtain rfl := Option.some.inj hlead
        match bytes, hlength with
        | [second, third], _ => exact exists_encodeChar_eq_three (by omega) h
      . split at hlead
        . obtain rfl := Option.some.inj hlead
          match bytes, hlength with
          | [second, third, fourth], _ => exact exists_encodeChar_eq_four (by omega) h
        . contradiction

theorem decode_of_isPrefix {char : Char} (h : String.utf8EncodeChar char <+: byte :: bytes) :
    decode byte bytes = ⟨char, char.utf8Size⟩ := by
  obtain ⟨rest, hrest⟩ := h
  obtain ⟨first, others, hchar, hdecode⟩ := decode_encodeChar_append char rest
  rw [hchar, List.cons_append, List.cons.injEq] at hrest
  rw [← hrest.1, ← hrest.2]
  exact hdecode

theorem not_isPrefix_of_decode_eq {width : Nat} {char : Char}
    (h : decode byte bytes = ⟨replacement, width⟩)
    (hlead : ∀ lead ∈ lead? byte.toNat, width ≤ lead.more) :
    ¬ String.utf8EncodeChar char <+: byte :: bytes := by
  intro hprefix
  have hdecode := (decode_of_isPrefix hprefix).symm.trans h
  obtain ⟨rfl, hwidth⟩ := Piece.mk.inj hdecode
  obtain ⟨rest, hrest⟩ := hprefix
  -- The replacement character is the only one in question, and its code is complete
  have hcode : String.utf8EncodeChar replacement = [0xef, 0xbf, 0xbd] := by
    decide
  rw [hcode] at hrest
  obtain ⟨rfl, _⟩ := List.cons.inj hrest
  have hle : width ≤ 2 := hlead ⟨15, 0x80, 0xbf, 2⟩ rfl
  rw [← hwidth] at hle
  contradiction

theorem not_startsCode {width : Nat}
    (hdecode : ∀ others, decode byte (bytes ++ others) = ⟨replacement, width⟩)
    (hlead : ∀ lead ∈ lead? byte.toNat, width ≤ lead.more) : ¬ StartsCode (byte :: bytes) := by
  rintro ⟨char, others, hcode⟩
  apply @not_isPrefix_of_decode_eq _ _ _ char (hdecode others) hlead
  rw [← hcode]
  exact List.prefix_rfl

theorem StartsCode.of_isPrefix (h : StartsCode bytes) (hrest : rest <+: bytes) : StartsCode rest := by
  obtain ⟨char, hchar⟩ := h
  exact ⟨char, hrest.trans hchar⟩

theorem isFirst_of_lt (h : byte.toNat < 0x80) : IsFirst (byte :: bytes) (decode byte bytes) := by
  obtain ⟨char, hchar⟩ := @exists_char_of_isValidChar byte.toNat (.inl (by omega))
  have hcode : String.utf8EncodeChar char = [byte] := by
    unfold String.utf8EncodeChar
    dsimp only
    rw [hchar, if_pos (Nat.le_of_lt_succ h), UInt8.ofNat_toNat]
  have hprefix : String.utf8EncodeChar char <+: byte :: bytes := by
    rw [hcode]
    exact ⟨bytes, rfl⟩
  rw [decode_of_isPrefix hprefix]
  exact .code hprefix

theorem isFirst_of_lead?_eq_none (h : 0x80 ≤ byte.toNat) (hlead : lead? byte.toNat = none) :
    IsFirst (byte :: bytes) (decode byte bytes) := by
  have hdecode (others : List UInt8) : decode byte others = ⟨replacement, 1⟩ := by
    rw [decode, if_neg (Nat.not_lt.2 h), hlead]
  have hnone : ∀ lead ∈ lead? byte.toNat, 1 ≤ lead.more := by
    simp [hlead]
  rw [hdecode]
  apply IsFirst.damaged (Nat.le_refl 1)
  . exact Nat.succ_pos _
  . intro char
    exact not_isPrefix_of_decode_eq (hdecode bytes) hnone
  . exact .inl rfl
  . intro longer hlonger _ hstarts
    apply @not_startsCode byte [] 1 (fun others => hdecode others) hnone
    apply hstarts.of_isPrefix
    rw [List.prefix_take_iff]
    exact ⟨⟨bytes, rfl⟩, Nat.le_of_lt hlonger⟩

theorem isFirst_of_lead?_eq_some {lead : Lead} (h : 0x80 ≤ byte.toNat)
    (hlead : lead? byte.toNat = some lead) : IsFirst (byte :: bytes) (decode byte bytes) := by
  have hdecode (others : List UInt8) :
      decode byte others = decode.go lead.low lead.high lead.more lead.bits 1 others := by
    rw [decode, if_neg (Nat.not_lt.2 h), hlead]
  obtain ⟨taken, rest, rfl, htaken, hlength⟩ :=
    exists_continues lead.low lead.high lead.more bytes
  obtain hlength | ⟨hlength, hnext⟩ := hlength
  . obtain ⟨char, hchar⟩ := exists_encodeChar_eq hlead htaken hlength
    have hprefix : String.utf8EncodeChar char <+: byte :: (taken ++ rest) := by
      rw [hchar]
      exact ⟨rest, rfl⟩
    rw [decode_of_isPrefix hprefix]
    exact .code hprefix
  . have hmore : ∀ other ∈ lead? byte.toNat, 1 + taken.length ≤ other.more := by
      intro other hother
      obtain rfl := Option.some.inj (hlead.symm.trans hother)
      omega
    have hdamaged : decode byte (taken ++ rest) = ⟨replacement, 1 + taken.length⟩ := by
      rw [hdecode]
      cases rest with
      | nil =>
        rw [List.append_nil]
        exact decode.go_of_end htaken hlength
      | cons next rest => exact decode.go_of_not_continues htaken hlength (hnext next rfl)
    have htake : (byte :: (taken ++ rest)).take (1 + taken.length) = byte :: taken := by
      rw [Nat.add_comm, List.take_succ_cons, List.take_left]
    rw [hdamaged]
    apply IsFirst.damaged (Nat.le_add_right 1 _)
    . simp only [List.length_cons, List.length_append]
      omega
    . intro char
      exact not_isPrefix_of_decode_eq hdamaged hmore
    . obtain ⟨hlow, hhigh⟩ := Lead.le_of_lead? hlead
      obtain ⟨last, hlast, hlastLength⟩ :=
        exists_completion hlow hhigh htaken (Nat.le_of_lt hlength)
      obtain ⟨char, hchar⟩ := exists_encodeChar_eq hlead hlast hlastLength
      refine .inr ⟨char, last, ?_⟩
      rw [htake, hchar, List.cons_append]
    . intro longer hlonger hle hstarts
      cases rest with
      | nil =>
        simp only [List.length_cons, List.length_append, List.length_nil] at hle
        omega
      | cons next rest =>
        -- One byte more is already too much, whatever follows it
        apply @not_startsCode byte (taken ++ [next]) _ _ hmore
        . apply hstarts.of_isPrefix
          rw [List.prefix_take_iff]
          constructor
          . exact ⟨rest, by simp⟩
          . simp only [List.length_cons, List.length_append, List.length_nil]
            omega
        . intro others
          rw [hdecode, List.append_assoc]
          exact decode.go_of_not_continues htaken hlength (hnext next rfl)

theorem isFirst_decode (byte : UInt8) (bytes : List UInt8) :
    IsFirst (byte :: bytes) (decode byte bytes) := by
  cases Nat.lt_or_ge byte.toNat 0x80 with
  | inl h => exact isFirst_of_lt h
  | inr h =>
    cases hlead : lead? byte.toNat with
    | none => exact isFirst_of_lead?_eq_none h hlead
    | some lead => exact isFirst_of_lead?_eq_some h hlead

inductive FallsInto : List UInt8 → List Piece → Prop
  | nil : FallsInto [] []
  | cons {bytes : List UInt8} {piece : Piece} {pieces : List Piece} (h : IsFirst bytes piece)
    (hwidth : 1 ≤ piece.width ∧ piece.width ≤ min 4 bytes.length)
    (hrest : FallsInto (bytes.drop piece.width) pieces) : FallsInto bytes (piece :: pieces)

theorem fallsInto_pieces (bytes : List UInt8) : FallsInto bytes (pieces bytes) := by
  induction hlength : bytes.length using Nat.strongRecOn generalizing bytes with
  | ind length ih =>
    cases bytes with
    | nil => exact .nil
    | cons byte bytes =>
      have hpos := one_le_width_decode byte bytes
      have hfour := width_decode_le_four byte bytes
      have hle := width_decode_le_length byte bytes
      have hdrop := List.length_drop (l := byte :: bytes) (i := (decode byte bytes).width)
      rw [pieces_cons]
      apply FallsInto.cons (isFirst_decode byte bytes)
      . exact ⟨hpos, Nat.le_min.2 ⟨hfour, hle⟩⟩
      . apply ih _ _ _ hdrop
        omega

end Utf8

end Offside
