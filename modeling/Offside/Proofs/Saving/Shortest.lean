import Offside.Proofs.Saving.Format
import Offside.Proofs.Saving.Losses

/-!
This module contains the codes of levels that are as short as possible, and the proof that saving a
state that was read writes the same bytes again, up to the codes that were longer than necessary.
-/

namespace Offside

namespace Varint

def Code.IsShortest (code : Code) : Prop :=
  code.more ≠ [] → code.last ≠ 0

theorem value_append_lt (more : List UInt8) {last : UInt8} (hlast : last.toNat < 0x80) :
    value (more ++ [last]) < (last.toNat + 1) * Nat.pow 0x80 more.length := by
  induction more with
  | nil =>
    have hpow : (last.toNat + 1) * Nat.pow 0x80 ([] : List UInt8).length = last.toNat + 1 :=
      Nat.mul_one _
    rw [hpow, List.nil_append, value, value]
    omega
  | cons byte more ih =>
    have hpow : (last.toNat + 1) * Nat.pow 0x80 (byte :: more).length
        = (last.toNat + 1) * Nat.pow 0x80 more.length * 0x80 :=
      (Nat.mul_assoc ..).symm
    rw [hpow, List.cons_append, value]
    omega

theorem value_append_pos (more : List UInt8) {last : UInt8} (hlast : last.toNat < 0x80)
    (hne : last ≠ 0) : 0 < value (more ++ [last]) := by
  induction more with
  | nil =>
    have : last.toNat ≠ 0 := by
      intro hzero
      exact hne (UInt8.toNat_inj.1 hzero)
    simp only [List.nil_append, value]
    omega
  | cons byte more ih =>
    rw [List.cons_append, value]
    omega

theorem Code.toNat_level (code : Code) : code.level.toNat = value code.bytes := by
  have hvalue := value_append_lt code.more code.stops
  have hlast := code.stops
  have hbound : (code.last.toNat + 1) * Nat.pow 0x80 code.more.length ≤ UInt32.size := by
    cases code.bounded with
    | inl hmore =>
      have hpow : Nat.pow 0x80 code.more.length ≤ Nat.pow 0x80 3 :=
        Nat.pow_le_pow_right (by decide) (by omega)
      apply Nat.le_trans (Nat.mul_le_mul (show code.last.toNat + 1 ≤ 0x80 by omega) hpow)
      decide
    | inr hmore =>
      rw [hmore.1]
      apply Nat.le_trans (Nat.mul_le_mul_right _ (show code.last.toNat + 1 ≤ 0x10 by omega))
      decide
  rw [Code.level, UInt32.toNat_ofNat_of_lt']
  apply Nat.lt_of_lt_of_le hvalue hbound

theorem encode.length_go_le {value length : Nat} (h : value < Nat.pow 0x80 (length + 1)) :
    (encode.go value).length ≤ length + 1 := by
  induction length generalizing value with
  | zero =>
    change value < 128 at h
    rw [encode.go, if_pos h]
    simp
  | succ length ih =>
    rw [encode.go]
    split
    . simp
    . have hrest : value / 128 < Nat.pow 0x80 (length + 1) := by
        apply Nat.div_lt_of_lt_mul
        rw [Nat.mul_comm]
        exact h
      rw [List.length_cons]
      apply Nat.succ_le_succ (ih hrest)

theorem encode.go_value {more : List UInt8} {last : UInt8}
    (hmore : ∀ byte ∈ more, 0x80 ≤ byte.toNat) (hlast : last.toNat < 0x80)
    (hshortest : more ≠ [] → last ≠ 0) :
    encode.go (value (more ++ [last])) = more ++ [last] := by
  induction more with
  | nil =>
    have hvalue : value [last] = last.toNat := by
      simp only [value]
      omega
    rw [List.nil_append, hvalue, encode.go, if_pos hlast, UInt8.ofNat_toNat]
  | cons byte more ih =>
    rw [List.forall_mem_cons] at hmore
    have hne := hshortest (by simp)
    have hpos := value_append_pos more hlast hne
    have hbyte := byte.toNat_lt
    rw [List.cons_append, value]
    generalize hrest : value (more ++ [last]) = rest at ih hpos ⊢
    have hlow : (byte.toNat % 0x80 + 0x80 * rest) % 128 + 128 = byte.toNat := by
      omega
    have hhigh : (byte.toNat % 0x80 + 0x80 * rest) / 128 = rest := by
      omega
    rw [encode.go, if_neg (by omega), hlow, hhigh, UInt8.ofNat_toNat, ih hmore.2 fun _ => hne]

namespace Code

variable {code : Code}

theorem encode_level (h : code.IsShortest) : encode code.level = code.bytes := by
  rw [encode, toNat_level]
  apply encode.go_value code.continued code.stops h

theorem length_encode_level_lt (h : ¬ code.IsShortest) :
    (encode code.level).length < code.bytes.length := by
  rw [IsShortest, Classical.not_imp, Classical.not_not] at h
  obtain ⟨hmore, hlast⟩ := h
  have hvalue := value_append_lt code.more code.stops
  rw [hlast] at hvalue
  cases hlength : code.more.length with
  | zero => exact absurd (List.length_eq_zero_iff.1 hlength) hmore
  | succ length =>
    rw [encode, toNat_level, bytes, List.length_append, List.length_singleton, hlength, hlast]
    apply Nat.lt_succ_of_le
    apply encode.length_go_le
    simpa [hlength] using hvalue

theorem length_encode_level_le (code : Code) :
    (encode code.level).length ≤ code.bytes.length := by
  by_cases h : code.IsShortest
  . apply Nat.le_of_eq (congrArg List.length (encode_level h))
  . apply Nat.le_of_lt (length_encode_level_lt h)

end Code

end Varint

namespace State

open Varint

theorem levelBytes_append (lhs rhs : List UInt32) :
    levelBytes (lhs ++ rhs) = levelBytes lhs + levelBytes rhs := by
  rw [levelBytes, List.flatMap_append, List.length_append]
  rfl

variable {codes : List Code}

theorem levelBytes_map_level_le (codes : List Code) :
    levelBytes (codes.map Code.level) ≤ (codes.flatMap Code.bytes).length := by
  induction codes with
  | nil => apply Nat.le_refl
  | cons code codes ih =>
    rw [List.map_cons, levelBytes_cons, List.flatMap_cons, List.length_append]
    apply Nat.add_le_add code.length_encode_level_le ih

theorem levelBytes_map_level_lt {code : Code} (hmem : code ∈ codes) (h : ¬ code.IsShortest) :
    levelBytes (codes.map Code.level) < (codes.flatMap Code.bytes).length := by
  obtain ⟨before, after, rfl⟩ := List.append_of_mem hmem
  have hcode := Code.length_encode_level_lt h
  have hbefore := levelBytes_map_level_le before
  have hafter := levelBytes_map_level_le after
  rw [List.map_append, List.map_cons, levelBytes_append, levelBytes_cons, List.flatMap_append,
    List.flatMap_cons, List.length_append, List.length_append]
  omega

theorem flatMap_encode_map_level (h : ∀ code ∈ codes, code.IsShortest) :
    (codes.map Code.level).flatMap Varint.encode = codes.flatMap Code.bytes := by
  induction codes with
  | nil => rfl
  | cons code codes ih =>
    rw [List.forall_mem_cons] at h
    rw [List.map_cons, List.flatMap_cons, List.flatMap_cons, ih h.2, Code.encode_level h.1]

variable {bytes : List UInt8} {capacity : Nat} {state : State}

theorem exists_codes_of_decode (hne : bytes ≠ []) (h : decode bytes capacity = .ok state) :
    ∃ codes : List Code,
      Sections capacity bytes state.delimiters.toList (codes.flatMap Code.bytes) ∧
      state.indents.blocks = codes.map Code.level := by
  obtain ⟨result, hreads⟩ := exists_reads capacity bytes
  rw [decode_of_reads hreads] at h
  subst h
  cases hreads with
  | initial => contradiction
  | @state _ codes _ hsections _ hlevels =>
    refine ⟨codes, hsections, ?_⟩
    rw [Indentation.blocks, hlevels, List.tail_cons]

theorem sections_encode (hsize : state.delimiters.size ≤ 255)
    (hbytes : 1 + state.delimiters.size + levelBytes state.indents.blocks ≤ capacity) :
    Sections capacity (state.encode capacity) state.delimiters.toList
      (state.indents.blocks.flatMap Varint.encode) where
  length_le := length_encode_le state capacity
  bytes_eq := by
    rw [encode_eq_cons state (by omega), ← toList_delimiters_truncate, ← blocks_truncate,
      truncate_eq_self hsize hbytes]
  length_lt := by
    rw [Array.length_toList]
    omega

theorem Sections.length_eq {delimiters : List Delimiter} {levels : List UInt8}
    (h : Sections capacity bytes delimiters levels) :
    bytes.length = 1 + delimiters.length + levels.length := by
  rw [h.bytes_eq, List.length_cons, List.length_append, List.length_map]
  omega

theorem Sections.eq_iff {delimiters : List Delimiter} {lhs rhs other : List UInt8}
    (hlhs : Sections capacity bytes delimiters lhs) (hrhs : Sections capacity other delimiters rhs) :
    bytes = other ↔ lhs = rhs := by
  rw [hlhs.bytes_eq, hrhs.bytes_eq, List.cons.injEq, List.append_cancel_left_eq]
  simp

theorem save_of_decode (hne : bytes ≠ []) (h : decode bytes capacity = .ok state) :
    ∃ codes : List Code,
      Sections capacity bytes state.delimiters.toList (codes.flatMap Code.bytes) ∧
      Sections capacity (state.save capacity).value state.delimiters.toList
        (state.indents.blocks.flatMap Varint.encode) ∧
      state.indents.blocks = codes.map Code.level ∧
      (state.save capacity).events = [] ∧
      (state.save capacity).value.length ≤ bytes.length ∧
      decode (state.save capacity).value capacity = .ok state ∧
      ((state.save capacity).value = bytes ↔ ∀ code ∈ codes, code.IsShortest) ∧
      ((state.save capacity).value ≠ bytes → (state.save capacity).value.length < bytes.length) := by
  obtain ⟨codes, hsections, hblocks⟩ := exists_codes_of_decode hne h
  have hflags : ∀ delimiter ∈ state.delimiters, delimiter.WellFormed := by
    intro delimiter hmem
    rw [Delimiter.wellFormed_iff_isFlags]
    apply isFlags_of_decode h delimiter hmem
  have hle := levelBytes_map_level_le codes
  have hlength := hsections.length_eq
  have hroom := hsections.length_le
  have hcount := state.delimiters.length_toList
  have hsize : state.delimiters.size ≤ 255 := by
    have := hsections.length_lt
    omega
  have hbytes : 1 + state.delimiters.size + levelBytes state.indents.blocks ≤ capacity := by
    rw [hblocks]
    omega
  have hsaved : Sections capacity (state.save capacity).value state.delimiters.toList
      (state.indents.blocks.flatMap Varint.encode) :=
    sections_encode hsize hbytes
  have hsame : (state.save capacity).value = bytes ↔ ∀ code ∈ codes, code.IsShortest := by
    rw [hsaved.eq_iff hsections, hblocks]
    constructor
    . intro heq code hmem
      apply Classical.byContradiction
      intro hlonger
      have hlt := levelBytes_map_level_lt hmem hlonger
      rw [levelBytes, heq] at hlt
      exact Nat.lt_irrefl _ hlt
    . apply flatMap_encode_map_level
  have hshorter : (state.save capacity).value.length
      = 1 + state.delimiters.toList.length + levelBytes (codes.map Code.level) := by
    rw [hsaved.length_eq, hblocks]
    rfl
  refine ⟨codes, hsections, hsaved, hblocks, ?_, ?_, ?_, hsame, ?_⟩
  . exact warnings_eq_nil_iff.2 (truncate_eq_self hsize hbytes)
  . omega
  . exact decode_encode_of_fits hflags hsize hbytes
  . intro hdiffers
    rw [ne_eq, hsame] at hdiffers
    simp only [Classical.not_forall] at hdiffers
    obtain ⟨code, hmem, hlonger⟩ := hdiffers
    have hlt := levelBytes_map_level_lt hmem hlonger
    omega

theorem save_of_decode_longer_code :
    let state : State := { indents := .push .base 4 (by decide), delimiters := #[⟨0x11⟩] }
    let bytes : List UInt8 := [1, 0x11, 0x84, 0x00]
    bytes ≠ [] ∧ decode bytes 4 = .ok state ∧ (state.save 4).value.length < bytes.length := by
  intro state bytes
  have hne : bytes ≠ [] := by
    decide
  have h : decode bytes 4 = .ok state := by
    cbv
  obtain ⟨codes, _, _, _, _, _, _, _, hshorter⟩ := save_of_decode hne h
  exact ⟨hne, h, hshorter (by decide +kernel)⟩

end State

end Offside
