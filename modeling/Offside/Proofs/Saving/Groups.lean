import Mathlib.Algebra.BigOperators.Ring.Finset
import Offside.Proofs.Saving.Bounds
import Offside.Proofs.Saving.Shortest

/-!
This module contains the proof that the code of levels is the shortest one of its kind and tells where
it ends. Levels are written and read with shifts and masks of 32 bits here, within the five bytes that
a level may take.
-/

namespace Offside

namespace Varint

def pack? (level : UInt32) : Option (Nat × Array UInt8) :=
  go level 0 (.replicate 5 0)
where
  go (level : UInt32) (index : Nat) (bytes : Array UInt8) : Option (Nat × Array UInt8) :=
    let low := level.toUInt8 &&& 0x7f
    let rest := level >>> 7
    if h : index < bytes.size then
      if rest = 0 then
        some (index + 1, bytes.set index low)
      else
        go rest (index + 1) (bytes.set index (low ||| 0x80))
    else
      none
  termination_by bytes.size - index
  decreasing_by
    rw [Array.size_set]
    omega

def unpack? (bytes : List UInt8) : Option (UInt32 × Nat) :=
  go 0 0 bytes
where
  go (index : Nat) (level : UInt32) : List UInt8 → Option (UInt32 × Nat)
    | [] => none
    | byte :: bytes =>
      let bits := byte &&& 0x7f
      if 5 ≤ index ∨ index = 4 ∧ 0x0f < bits then
        none
      else
        let level := level ||| bits.toUInt32 <<< .ofNat (7 * index)
        if byte &&& 0x80 = 0 then some (level, index + 1) else go (index + 1) level bytes

theorem toNat_and_low (byte : UInt8) : (byte &&& 0x7f).toNat = byte.toNat % 0x80 := by
  rw [UInt8.toNat_and]
  exact Nat.and_two_pow_sub_one_eq_mod byte.toNat 7

theorem and_high_eq_zero_iff {byte : UInt8} : byte &&& 0x80 = 0 ↔ byte.toNat < 0x80 := by
  have hall : ∀ value < 256, UInt8.ofNat value &&& 0x80 = 0 ↔ value < 0x80 := by
    decide +kernel
  have hbyte := hall byte.toNat byte.toNat_lt
  rwa [UInt8.ofNat_toNat] at hbyte

theorem or_high {byte : UInt8} (h : byte.toNat < 0x80) :
    byte ||| 0x80 = .ofNat (byte.toNat + 0x80) := by
  have hall : ∀ value < 0x80, UInt8.ofNat value ||| 0x80 = .ofNat (value + 0x80) := by
    decide +kernel
  have hbyte := hall byte.toNat h
  rwa [UInt8.ofNat_toNat] at hbyte

theorem toNat_shiftRight (level : UInt32) : (level >>> 7).toNat = level.toNat / 0x80 := by
  rw [UInt32.toNat_shiftRight]
  exact Nat.shiftRight_eq_div_pow level.toNat 7

theorem toNat_low (level : UInt32) : (level.toUInt8 &&& 0x7f).toNat = level.toNat % 0x80 := by
  rw [toNat_and_low, UInt32.toNat_toUInt8]
  omega

theorem toNat_or_shiftLeft {level bits : UInt32} {shift : Nat} (hshift : shift < 32)
    (hlevel : level.toNat < 2 ^ shift) (hbits : 2 ^ shift * bits.toNat < 2 ^ 32) :
    (level ||| bits <<< .ofNat shift).toNat = level.toNat + 2 ^ shift * bits.toNat := by
  have hcount : (UInt32.ofNat shift).toNat % 32 = shift := by
    rw [UInt32.toNat_ofNat_of_lt' (Nat.lt_trans hshift (by decide)), Nat.mod_eq_of_lt hshift]
  -- The two numbers have no bit in common, so that the bits of both add up
  rw [UInt32.toNat_or, UInt32.toNat_shiftLeft, hcount, Nat.shiftLeft_eq, Nat.mul_comm bits.toNat,
    Nat.mod_eq_of_lt hbits, Nat.or_comm, ← Nat.two_pow_add_eq_or_of_lt hlevel, Nat.add_comm]

theorem encode_eq_words (level : UInt32) :
    encode level =
      if level >>> 7 = 0 then
        [level.toUInt8 &&& 0x7f]
      else
        ((level.toUInt8 &&& 0x7f) ||| 0x80) :: encode (level >>> 7) := by
  have hlow := toNat_low level
  have hrest : level >>> 7 = 0 ↔ level.toNat < 0x80 := by
    rw [← UInt32.toNat_inj, toNat_shiftRight, UInt32.toNat_zero]
    omega
  rw [encode, encode.go]
  split
  . next hlt =>
    rw [if_pos (hrest.2 hlt), ← Nat.mod_eq_of_lt hlt, ← hlow, UInt8.ofNat_toNat]
  . next hle =>
    have hhigh := or_high (show (level.toUInt8 &&& 0x7f).toNat < 0x80 by omega)
    rw [if_neg (mt hrest.1 hle), hhigh, hlow, encode, toNat_shiftRight]

theorem pack?.go_eq {level : UInt32} {index : Nat} {bytes : Array UInt8}
    (h : index + (encode level).length ≤ bytes.size) :
    go level index bytes =
      some (index + (encode level).length, State.overwrite bytes index (encode level)) := by
  fun_induction go level index bytes with
  | case1 level index bytes low rest hindex hrest =>
    rw [encode_eq_words, if_pos hrest, State.overwrite, State.overwrite, Array.setIfInBounds,
      dif_pos hindex]
    rfl
  | case2 level index bytes low rest hindex hrest ih =>
    rw [encode_eq_words, if_neg hrest, List.length_cons] at h ⊢
    have hlength : index + 1 + (encode rest).length ≤ (bytes.set index (low ||| 0x80)).size := by
      rw [Array.size_set, Nat.add_right_comm, Nat.add_assoc]
      exact h
    rw [ih hlength, State.overwrite, Array.setIfInBounds, dif_pos hindex, Nat.add_right_comm,
      Nat.add_assoc]
  | case3 level index bytes hindex =>
    have := one_le_length_encode level
    omega

theorem exists_pack?_eq (level : UInt32) :
    ∃ bytes, pack? level = some ((encode level).length, bytes) ∧ bytes.size = 5 ∧
      bytes.toList.take (encode level).length = encode level := by
  have hle := length_encode_le_five level
  have hsize : (Array.replicate 5 (0 : UInt8)).size = 5 := Array.size_replicate
  refine ⟨State.overwrite (.replicate 5 0) 0 (encode level), ?_, ?_, ?_⟩
  . rw [pack?, pack?.go_eq, Nat.zero_add]
    omega
  . rw [State.size_overwrite, hsize]
  . rw [State.toList_overwrite_zero, List.take_left]
    omega

theorem toNat_or_bits {index : Nat} {level : UInt32} {byte : UInt8} (hindex : index ≤ 4)
    (hlevel : level.toNat < 2 ^ (7 * index)) (hbits : index = 4 → byte.toNat % 0x80 < 0x10) :
    (level ||| (byte &&& 0x7f).toUInt32 <<< .ofNat (7 * index)).toNat
      =
    level.toNat + 2 ^ (7 * index) * (byte.toNat % 0x80) := by
  have hbyte : (byte &&& 0x7f).toUInt32.toNat = byte.toNat % 0x80 := by
    rw [UInt8.toNat_toUInt32, toNat_and_low]
  rw [toNat_or_shiftLeft (by omega) hlevel, hbyte]
  rw [hbyte]
  cases Nat.lt_or_eq_of_le hindex with
  | inl hlt =>
    have hpow : 2 ^ (7 * index) ≤ 2 ^ 21 := Nat.pow_le_pow_right (by decide) (by omega)
    apply Nat.lt_of_le_of_lt (Nat.mul_le_mul hpow (show byte.toNat % 0x80 ≤ 0x7f by omega))
    decide
  | inr heq =>
    have := hbits heq
    rw [heq]
    omega

namespace unpack?

variable {index : Nat} {level : UInt32} {byte : UInt8} {bytes : List UInt8}

theorem go_of_five_le (h : 5 ≤ index) : go index level bytes = none := by
  cases bytes with
  | nil => rw [go]
  | cons byte bytes => rw [go, if_pos (.inl h)]

theorem go_four_cons (h : 0x10 ≤ byte.toNat % 0x80) : go 4 level (byte :: bytes) = none := by
  have hbits : 0x0f < byte &&& 0x7f := by
    rw [UInt8.lt_iff_toNat_lt, toNat_and_low]
    exact h
  rw [go, if_pos (.inr ⟨rfl, hbits⟩)]

theorem go_cons (hindex : index ≤ 4) (hlevel : level.toNat < 2 ^ (7 * index))
    (hbits : index = 4 → byte.toNat % 0x80 < 0x10) :
    go index level (byte :: bytes) =
      let next := .ofNat (level.toNat + 2 ^ (7 * index) * (byte.toNat % 0x80))
      if byte.toNat < 0x80 then some (next, index + 1) else go (index + 1) next bytes := by
  have hroom : ¬ (5 ≤ index ∨ index = 4 ∧ 0x0f < byte &&& 0x7f) := by
    have hfour : (0x0f : UInt8).toNat = 0x0f := rfl
    rw [UInt8.lt_iff_toNat_lt, toNat_and_low, hfour]
    omega
  rw [go, if_neg hroom, ← toNat_or_bits hindex hlevel hbits, UInt32.ofNat_toNat]
  simp only [and_high_eq_zero_iff]

theorem two_pow_succ (index : Nat) : 2 ^ (7 * (index + 1)) = 2 ^ (7 * index) * 0x80 :=
  Nat.pow_add 2 (7 * index) 7

theorem toNat_next_lt (byte : UInt8) (hlevel : level.toNat < 2 ^ (7 * index)) :
    level.toNat + 2 ^ (7 * index) * (byte.toNat % 0x80) < 2 ^ (7 * (index + 1)) := by
  have hbits : 2 ^ (7 * index) * (byte.toNat % 0x80) ≤ 2 ^ (7 * index) * 0x7f :=
    Nat.mul_le_mul_left _ (by omega)
  rw [two_pow_succ]
  omega

theorem go_eq (hindex : index ≤ 4) (hlevel : level.toNat < 2 ^ (7 * index)) :
    go index level bytes =
      (decode?.go (4 - index) bytes).map fun (value, rest) =>
        (.ofNat (level.toNat + 2 ^ (7 * index) * value), index + (bytes.length - rest.length)) := by
  -- What is known of the level stays below the place of the next seven bits
  induction bytes generalizing index level with
  | nil => cases h : 4 - index <;> simp [go, decode?.go]
  | cons byte bytes ih =>
    have hlength : index + 1 = index + ((byte :: bytes).length - bytes.length) := by
      rw [List.length_cons]
      omega
    cases hmore : 4 - index with
    | zero =>
      obtain rfl : index = 4 := by omega
      rw [decode?.go]
      cases Nat.lt_or_ge (byte.toNat % 0x80) 0x10 with
      | inl hbits =>
        rw [go_cons hindex hlevel fun _ => hbits]
        dsimp only
        split
        . next hlast =>
          rw [if_pos (by omega), Option.map_some, Nat.mod_eq_of_lt hlast, hlength]
        . next hlast =>
          rw [if_neg (by omega), go_of_five_le (Nat.le_refl _), Option.map_none]
      | inr hbits => rw [go_four_cons hbits, if_neg (by omega), Option.map_none]
    | succ more =>
      rw [go_cons hindex hlevel fun _ => by omega, decode?.go]
      dsimp only
      split
      . next hlast => rw [Option.map_some, Nat.mod_eq_of_lt hlast, hlength]
      . next hlast =>
        have hnext := toNat_next_lt byte hlevel
        have hbound : 2 ^ (7 * (index + 1)) ≤ UInt32.size :=
          Nat.pow_le_pow_right (by decide) (show 7 * (index + 1) ≤ 32 by omega)
        have hmore : 4 - (index + 1) = more := by omega
        rw [ih (by omega) (by rwa [UInt32.toNat_ofNat_of_lt' (Nat.lt_of_lt_of_le hnext hbound)]), hmore,
          UInt32.toNat_ofNat_of_lt' (Nat.lt_of_lt_of_le hnext hbound), Option.map_map]
        apply Option.map_congr
        rintro ⟨value, rest⟩ hgo
        have hrest := decode?.length_lt_of_go_eq hgo
        have hvalue : level.toNat + 2 ^ (7 * index) * (byte.toNat % 0x80) + 2 ^ (7 * (index + 1)) * value
            = level.toNat + 2 ^ (7 * index) * (byte.toNat % 0x80 + 0x80 * value) := by
          rw [two_pow_succ, Nat.mul_add, Nat.mul_assoc, Nat.add_assoc]
        have hcount : index + 1 + (bytes.length - rest.length)
            = index + ((byte :: bytes).length - rest.length) := by
          rw [List.length_cons]
          omega
        dsimp only [Function.comp_apply]
        rw [hvalue, hcount]

end unpack?

/--
One of the first five bytes ends the level, that is, it is the first byte without a high bit and, if it
is the fifth one, holds four bits only.
-/
structure EndsAt (bytes : List UInt8) (length : Nat) : Prop where
  one_le : 1 ≤ length
  le_five : length ≤ 5
  first : bytes.findIdx? (· < 0x80) = some (length - 1)
  fifth : length = 5 → ∀ byte ∈ bytes[4]?, byte < 0x10

variable {bytes : List UInt8} {level : UInt32} {length : Nat}

theorem unpack?_eq (bytes : List UInt8) :
    unpack? bytes = (decode? bytes).map fun (level, rest) => (level, bytes.length - rest.length) := by
  rw [unpack?, unpack?.go_eq (by decide) (by decide), decode?, Option.map_map]
  apply Option.map_congr
  rintro ⟨value, rest⟩ _
  simp

theorem unpack?_bytes_append (code : Code) (rest : List UInt8) :
    unpack? (code.bytes ++ rest) = some (code.level, code.bytes.length) := by
  rw [unpack?_eq, decode?_bytes_append, Option.map_some]
  dsimp only
  rw [List.length_append, Nat.add_sub_cancel]

theorem unpack?_eq_some_iff :
    unpack? bytes = some (level, length) ↔
      ∃ (code : Code) (rest : List UInt8),
        bytes = code.bytes ++ rest ∧ code.level = level ∧ code.bytes.length = length := by
  constructor
  . intro h
    rw [unpack?_eq] at h
    obtain ⟨⟨other, rest⟩, hdecode, heq⟩ := Option.map_eq_some_iff.1 h
    obtain ⟨rfl, rfl⟩ := Prod.mk.inj heq
    obtain ⟨code, rfl, rfl⟩ := exists_code_of_decode? hdecode
    refine ⟨code, rest, rfl, rfl, ?_⟩
    rw [List.length_append, Nat.add_sub_cancel]
  . rintro ⟨code, rest, rfl, rfl, rfl⟩
    apply unpack?_bytes_append

theorem decode?_eq_map_unpack? (bytes : List UInt8) :
    decode? bytes = (unpack? bytes).map fun (level, length) => (level, bytes.drop length) := by
  rw [unpack?_eq, Option.map_map]
  cases hdecode : decode? bytes with
  | none => rfl
  | some result =>
    obtain ⟨code, rfl, hlevel⟩ := exists_code_of_decode? hdecode
    simp

theorem Code.length_bytes (code : Code) : code.bytes.length = code.more.length + 1 := by
  rw [bytes, List.length_append, List.length_singleton]

theorem EndsAt.exists_code (h : EndsAt bytes length) :
    ∃ (code : Code) (rest : List UInt8), bytes = code.bytes ++ rest ∧ code.bytes.length = length := by
  have hpos := h.one_le
  have hfive := h.le_five
  obtain ⟨hlt, hlast, hmore⟩ := List.findIdx?_eq_some_iff_getElem.1 h.first
  have hlength : (bytes.take (length - 1)).length = length - 1 := by
    rw [List.length_take]
    omega
  let code : Code :=
    {
      more := bytes.take (length - 1)
      last := bytes[length - 1]
      continued := by
        intro byte hmem
        obtain ⟨index, hindex, rfl⟩ := List.mem_iff_getElem.1 hmem
        rw [List.getElem_take]
        simpa [UInt8.lt_iff_toNat_lt] using hmore index (by omega)
      stops := by
        simpa [UInt8.lt_iff_toNat_lt] using hlast
      bounded := by
        rw [hlength]
        cases Nat.lt_or_eq_of_le hfive with
        | inl hlt => exact .inl (by omega)
        | inr heq =>
          subst heq
          have hfifth := h.fifth rfl bytes[4] (List.getElem?_eq_getElem hlt)
          exact .inr ⟨rfl, by simpa [UInt8.lt_iff_toNat_lt] using hfifth⟩
    }
  refine ⟨code, bytes.drop length, ?_, ?_⟩
  . have hnext : length - 1 + 1 = length := by omega
    rw [Code.bytes, ← List.take_succ_eq_append_getElem hlt, hnext, List.take_append_drop]
  . rw [code.length_bytes, hlength]
    omega

theorem Code.endsAt (code : Code) (rest : List UInt8) :
    EndsAt (code.bytes ++ rest) code.bytes.length := by
  have hbounded := code.bounded
  rw [length_bytes, bytes, List.append_assoc, List.singleton_append]
  refine ⟨by omega, by omega, ?_, ?_⟩
  . have hmore : code.more.findIdx? (· < 0x80) = none := by
      rw [List.findIdx?_eq_none_iff]
      simpa [UInt8.lt_iff_toNat_lt] using code.continued
    have hlast : code.last < 0x80 := by
      simpa [UInt8.lt_iff_toNat_lt] using code.stops
    rw [List.findIdx?_append, hmore, List.findIdx?_cons, if_pos (decide_eq_true hlast)]
    simp
  . intro hfive byte hmem
    have hlength : code.more.length = 4 := by omega
    rw [← hlength, List.getElem?_append_right (Nat.le_refl _), Nat.sub_self] at hmem
    obtain rfl : code.last = byte := Option.some.inj hmem
    rw [UInt8.lt_iff_toNat_lt]
    change code.last.toNat < 0x10
    omega

theorem value_take (bytes : List UInt8) (length : Nat) :
    value (bytes.take length)
      =
    ∑ index ∈ Finset.range length, (bytes.getD index 0).toNat % 0x80 * 0x80 ^ index := by
  induction length generalizing bytes with
  | zero => rfl
  | succ length ih =>
    cases bytes with
    | nil => simp [value]
    | cons byte bytes =>
      rw [List.take_succ_cons, value, ih, Finset.sum_range_succ', Finset.mul_sum, Nat.add_comm]
      congr 1
      . apply Finset.sum_congr rfl
        intro index _
        rw [List.getD_cons_succ, pow_succ, mul_left_comm, mul_comm 0x80 (0x80 ^ index)]
      . rw [List.getD_cons_zero, pow_zero, mul_one]

theorem shortest_selfDelimiting (level : UInt32) (bytes : List UInt8) (length : Nat) :
    (1 ≤ (encode level).length ∧ (encode level).length ≤ 5) ∧
    (∃ five, pack? level = some ((encode level).length, five) ∧ five.size = 5 ∧
      five.toList.take (encode level).length = encode level) ∧
    decode? (encode level ++ bytes) = some (level, bytes) ∧
    unpack? (encode level ++ bytes) = some (level, (encode level).length) ∧
    (unpack? bytes = some (level, length) → (encode level).length ≤ length) ∧
    (unpack? bytes = some (level, length) ↔
      EndsAt bytes length ∧ level.toNat
        = ∑ index ∈ Finset.range length, (bytes.getD index 0).toNat % 0x80 * 0x80 ^ index) ∧
    (EndsAt bytes length →
      ∑ index ∈ Finset.range length, (bytes.getD index 0).toNat % 0x80 * 0x80 ^ index < 2 ^ 32 ∧
      ∀ other, unpack? (bytes.take length ++ other) = unpack? bytes) ∧
    decode? bytes = (unpack? bytes).map fun (level, length) => (level, bytes.drop length) := by
  refine ⟨⟨one_le_length_encode level, length_encode_le_five level⟩, exists_pack?_eq level,
    decode?_encode_append level bytes, ?_, ?_, ?_, ?_, decode?_eq_map_unpack? bytes⟩
  . rw [unpack?_eq, decode?_encode_append, Option.map_some, List.length_append]
    dsimp only
    rw [Nat.add_sub_cancel]
  . intro h
    obtain ⟨code, rest, rfl, rfl, rfl⟩ := unpack?_eq_some_iff.1 h
    apply code.length_encode_level_le
  . rw [← value_take, unpack?_eq_some_iff]
    constructor
    . rintro ⟨code, rest, rfl, rfl, rfl⟩
      rw [List.take_left, code.toNat_level]
      exact ⟨code.endsAt rest, rfl⟩
    . rintro ⟨hends, hlevel⟩
      obtain ⟨code, rest, rfl, rfl⟩ := hends.exists_code
      rw [List.take_left, ← code.toNat_level, UInt32.toNat_inj] at hlevel
      exact ⟨code, rest, rfl, hlevel.symm, rfl⟩
  . intro hends
    obtain ⟨code, rest, rfl, rfl⟩ := hends.exists_code
    rw [← value_take, List.take_left, ← code.toNat_level]
    refine ⟨code.level.toNat_lt, ?_⟩
    intro other
    rw [unpack?_bytes_append, unpack?_bytes_append]

example : unpack? [0xff, 0xff, 0xff, 0xff, 0x0f, 0x07] = some (0xffffffff, 5) := by
  decide +kernel

end Varint

end Offside
