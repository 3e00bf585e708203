/-!
This module contains the code for the levels of blocks: groups of seven bits, lowest first, one to a
byte, where all bytes but the last one have their high bit set. A level of 32 bits takes at most
five bytes, the fifth of which holds four bits only.
-/

namespace Offside

namespace Varint

def encode (level : UInt32) : List UInt8 :=
  go level.toNat
where
  go (value : Nat) : List UInt8 :=
    if value < 128 then
      [.ofNat value]
    else
      .ofNat (value % 128 + 128) :: go (value / 128)
  termination_by value
  decreasing_by omega

def decode? (bytes : List UInt8) : Option (UInt32 × List UInt8) :=
  (go 4 bytes).map fun (value, rest) => (.ofNat value, rest)
where
  go : (more : Nat) → List UInt8 → Option (Nat × List UInt8)
    | _, [] => none
    -- Of the fifth byte, only four bits are left for a level
    | 0, byte :: bytes => if byte.toNat < 16 then some (byte.toNat, bytes) else none
    | more + 1, byte :: bytes =>
      if byte.toNat < 128 then
        some (byte.toNat, bytes)
      else
        (go more bytes).map fun (value, rest) => (byte.toNat % 128 + 128 * value, rest)

theorem decode?.go_encode_append {more value : Nat} (rest : List UInt8)
    (h : value < 16 * Nat.pow 128 more) :
    go more (encode.go value ++ rest) = some (value, rest) := by
  induction more generalizing value with
  | zero =>
    change value < 16 at h
    rw [encode.go, if_pos (by omega), List.singleton_append, go, UInt8.toNat_ofNat',
      if_pos (by omega)]
    simp
    omega
  | succ more ih =>
    change value < 16 * (Nat.pow 128 more * 128) at h
    rw [encode.go]
    split
    . rw [List.singleton_append, go, UInt8.toNat_ofNat', if_pos (by omega)]
      simp
      omega
    . rw [List.cons_append, go, UInt8.toNat_ofNat', if_neg (by omega), ih (by omega)]
      simp
      omega

theorem decode?_encode_append (level : UInt32) (rest : List UInt8) :
    decode? (encode level ++ rest) = some (level, rest) := by
  have := level.toNat_lt
  rw [decode?, encode, decode?.go_encode_append rest (Nat.lt_of_lt_of_le this (by decide))]
  simp

theorem decode?.length_lt_of_go_eq {more value : Nat} {bytes rest : List UInt8}
    (h : go more bytes = some (value, rest)) : rest.length < bytes.length := by
  induction bytes generalizing more value with
  | nil => cases more <;> simp [go] at h
  | cons byte bytes ih =>
    cases more with
    | zero => grind [go]
    | succ more =>
      rw [go] at h
      split at h
      . grind
      . obtain ⟨⟨tail, _⟩, hgo, heq⟩ := Option.map_eq_some_iff.1 h
        cases heq
        exact Nat.lt_succ_of_lt (ih hgo)

theorem length_lt_of_decode?_eq {level : UInt32} {bytes rest : List UInt8}
    (h : decode? bytes = some (level, rest)) : rest.length < bytes.length := by
  obtain ⟨⟨value, _⟩, hgo, heq⟩ := Option.map_eq_some_iff.1 h
  cases heq
  exact decode?.length_lt_of_go_eq hgo

end Varint

end Offside
