import Offside.State.Decode
import Offside.State.Encode

/-!
This module contains the proof that a state which is saved with any capacity reads back as what was
kept of it: the outermost delimiters and the outermost blocks, as many as there was room for.
-/

namespace Offside

namespace Varint

theorem one_le_length_encode (level : UInt32) : 1 ≤ (encode level).length := by
  unfold encode
  rw [encode.go]
  split
  . simp
  . simp

end Varint

namespace Indentation

theorem isStack_of_prefix_toList {indents : Indentation} {levels : List UInt32}
    (h : 0 :: levels <+: indents.toList) : IsStack (0 :: levels) := by
  constructor
  . rfl
  . apply List.Pairwise.sublist
    . apply List.IsPrefix.sublist
      apply h
    . apply indents.isStack.2

def take (indents : Indentation) (count : Nat) : Indentation where
  levels := (0 :: indents.blocks.take count).toArray
  isStack := by
    rw [List.toList_toArray]
    apply isStack_of_prefix_toList
    rw [toList_eq_cons, List.prefix_cons_inj]
    apply List.take_prefix

@[simp]
theorem toList_take (indents : Indentation) (count : Nat) :
    (indents.take count).toList = 0 :: indents.blocks.take count := by
  simp [take, toList]

@[simp]
theorem blocks_take (indents : Indentation) (count : Nat) :
    (indents.take count).blocks = indents.blocks.take count := by
  rw [blocks, toList_take, List.tail_cons]

theorem blocks_inj {lhs rhs : Indentation} : lhs.blocks = rhs.blocks ↔ lhs = rhs := by
  rw [← toList_inj, toList_eq_cons, toList_eq_cons rhs, List.cons_inj_right]

theorem top_lt_of_toList_eq_append_cons {indents inner : Indentation} {level : UInt32}
    {levels : List UInt32} (h : inner.toList = indents.toList ++ level :: levels) :
    indents.top < level := by
  have hinner := inner.isStack_toList.2
  rw [h, List.pairwise_append] at hinner
  apply hinner.2.2
  . apply List.mem_of_getLast?
    apply getLast?_toList
  . simp

end Indentation

namespace State

def levelBytes (levels : List UInt32) : Nat :=
  (levels.flatMap Varint.encode).length

@[simp]
theorem levelBytes_cons (level : UInt32) (levels : List UInt32) :
    levelBytes (level :: levels) = (Varint.encode level).length + levelBytes levels := by
  simp [levelBytes]

structure IsLongestFitting (room : Nat) (levels kept : List UInt32) : Prop where
  isPrefix : kept <+: levels
  fits : levelBytes kept ≤ room
  longest : ∀ other, other <+: levels → levelBytes other ≤ room → other <+: kept

theorem isLongestFitting_fitting (room : Nat) (levels : List UInt32) :
    IsLongestFitting room levels (fitting room levels) where
  isPrefix := by apply fitting_isPrefix
  fits := by apply length_fitting_le
  longest := by
    intro other hprefix hfits
    induction other generalizing room levels with
    | nil => apply List.nil_prefix
    | cons level other ih =>
      obtain ⟨rest, rfl⟩ := hprefix
      rw [levelBytes_cons] at hfits
      rw [List.cons_append, fitting, if_pos (by omega), List.prefix_cons_inj]
      apply ih
      . apply List.prefix_append
      . omega

theorem fitting_of_levelBytes_le {room : Nat} {levels : List UInt32} (h : levelBytes levels ≤ room) :
    fitting room levels = levels := by
  have hlongest := isLongestFitting_fitting room levels
  apply List.IsPrefix.eq_of_length_le
  . exact hlongest.isPrefix
  . apply List.IsPrefix.length_le
    apply hlongest.longest
    . apply List.prefix_refl
    . exact h

theorem readDelimiters_map_bits (index : Nat) {delimiters : List Delimiter}
    (h : ∀ delimiter ∈ delimiters, delimiter.WellFormed) :
    readDelimiters index (delimiters.map Delimiter.bits) = .ok delimiters := by
  induction delimiters generalizing index with
  | nil => rfl
  | cons delimiter delimiters ih =>
    rw [List.forall_mem_cons] at h
    rw [List.map_cons, readDelimiters, Delimiter.ofBits?_bits h.1]
    dsimp
    rw [ih _ h.2]
    rfl

theorem readDelimiters_refused (index : Nat) {before after : List Delimiter} {refused : Delimiter}
    (hbefore : ∀ delimiter ∈ before, delimiter.WellFormed) (hrefused : ¬ refused.WellFormed) :
    readDelimiters index ((before ++ refused :: after).map Delimiter.bits)
      =
    .error (.invalidDelimiter (index + before.length) refused.bits) := by
  induction before generalizing index with
  | nil =>
    rw [List.nil_append, List.map_cons, readDelimiters, Delimiter.ofBits?_eq_none_iff.2 hrefused]
    rfl
  | cons delimiter before ih =>
    rw [List.forall_mem_cons] at hbefore
    rw [List.cons_append, List.map_cons, readDelimiters, Delimiter.ofBits?_bits hbefore.1]
    dsimp
    rw [ih _ hbefore.2, Nat.add_assoc, Nat.add_comm 1]
    rfl

theorem readBlocks_encode_append {indents inner : Indentation} {level : UInt32}
    (rest : List UInt8) (h : indents.push? level = some inner) :
    readBlocks indents (Varint.encode level ++ rest) = readBlocks inner rest := by
  have hdecode := Varint.decode?_encode_append level rest
  cases hbytes : Varint.encode level ++ rest with
  | nil =>
    -- A level is written with at least one byte
    have := Varint.one_le_length_encode level
    simp_all
  | cons byte bytes =>
    rw [hbytes] at hdecode
    rw [readBlocks]
    split
    . next hnone =>
      rw [hdecode] at hnone
      contradiction
    . next hsome =>
      rw [hdecode] at hsome
      cases hsome
      rw [h]

theorem readBlocks_flatMap_encode {indents inner : Indentation} {levels : List UInt32}
    (h : inner.toList = indents.toList ++ levels) :
    readBlocks indents (levels.flatMap Varint.encode) = .ok inner := by
  induction levels generalizing indents with
  | nil =>
    rw [List.append_nil, Indentation.toList_inj] at h
    rw [List.flatMap_nil, readBlocks, h]
  | cons level levels ih =>
    have htop := Indentation.top_lt_of_toList_eq_append_cons h
    have hpush : indents.push? level = some (indents.push level htop) := by
      rw [Indentation.push?, dif_pos htop]
    rw [List.flatMap_cons, readBlocks_encode_append _ hpush]
    apply ih
    rw [h, Indentation.toList_push, List.append_assoc, List.singleton_append]

theorem decode_cons_append {count : UInt8} {flags levels : List UInt8} {capacity : Nat}
    (hcount : count.toNat = flags.length)
    (hcapacity : 1 + flags.length + levels.length ≤ capacity) :
    decode (count :: (flags ++ levels)) capacity = (do
      let delimiters ← readDelimiters 0 flags
      let indents ← readBlocks .base levels
      return { indents, delimiters := delimiters.toArray }) := by
  rw [decode]
  rw [if_neg (by rw [List.length_cons, List.length_append]; omega)]
  rw [if_neg (by rw [List.length_append]; omega)]
  rw [hcount, List.take_left, List.drop_left]

/--
What a state that is saved with `capacity` bytes keeps: as many delimiters as the first byte can
count and the other bytes can hold, and the blocks that fit into the bytes behind them.
-/
structure IsTruncation (state : State) (capacity : Nat) (kept : State) : Prop where
  delimiters : kept.delimiters.toList =
    state.delimiters.toList.take (min (min state.delimiters.size 255) (capacity - 1))
  blocks : IsLongestFitting (capacity - 1 - kept.delimiters.size) state.indents.blocks
    kept.indents.blocks

def truncate (state : State) (capacity : Nat) : State where
  indents := state.indents.take (state.savedBlocks capacity).length
  delimiters := (state.savedDelimiters capacity).toArray

theorem toList_delimiters_truncate (state : State) (capacity : Nat) :
    (state.truncate capacity).delimiters.toList = state.savedDelimiters capacity := by
  rw [truncate, List.toList_toArray]

theorem blocks_truncate (state : State) (capacity : Nat) :
    (state.truncate capacity).indents.blocks = state.savedBlocks capacity := by
  rw [truncate, Indentation.blocks_take, eq_comm, ← List.prefix_iff_eq_take]
  apply fitting_isPrefix

theorem isTruncation_truncate (state : State) (capacity : Nat) :
    IsTruncation state capacity (state.truncate capacity) where
  delimiters := by
    rw [toList_delimiters_truncate, savedDelimiters, List.take_eq_take_iff, Array.length_toList]
    omega
  blocks := by
    rw [blocks_truncate, ← Array.length_toList, toList_delimiters_truncate]
    apply isLongestFitting_fitting

@[simp]
theorem encode_zero (state : State) : state.encode 0 = [] := by
  rw [encode, if_pos rfl]

theorem encode_eq_cons (state : State) {capacity : Nat} (h : capacity ≠ 0) :
    state.encode capacity = .ofNat (state.savedDelimiters capacity).length ::
      ((state.savedDelimiters capacity).map Delimiter.bits ++
        (state.savedBlocks capacity).flatMap Varint.encode) := by
  rw [encode, if_neg h]

theorem savedDelimiters_truncate (state : State) (capacity : Nat) :
    (state.truncate capacity).savedDelimiters capacity = state.savedDelimiters capacity := by
  rw [savedDelimiters, toList_delimiters_truncate, savedDelimiters, List.take_take, Nat.min_self]

theorem savedBlocks_truncate (state : State) (capacity : Nat) :
    (state.truncate capacity).savedBlocks capacity = state.savedBlocks capacity := by
  rw [savedBlocks, savedDelimiters_truncate, blocks_truncate]
  apply fitting_of_levelBytes_le
  apply length_fitting_le

theorem encode_truncate (state : State) (capacity : Nat) :
    (state.truncate capacity).encode capacity = state.encode capacity := by
  rw [encode, savedDelimiters_truncate, savedBlocks_truncate, encode]

theorem truncate_zero (state : State) : state.truncate 0 = {} := by
  have hdelimiters : (state.truncate 0).delimiters = #[] := by
    apply Array.toList_inj.1
    rw [toList_delimiters_truncate, savedDelimiters, Nat.zero_sub, Nat.min_zero, List.take_zero]
  have hblocks : (state.truncate 0).indents.blocks = [] := by
    have hfits := (isTruncation_truncate state 0).blocks.fits
    cases hlevels : (state.truncate 0).indents.blocks with
    | nil => rfl
    | cons level levels =>
      have := Varint.one_le_length_encode level
      rw [hlevels, levelBytes_cons] at hfits
      omega
  apply State.ext
  . apply Indentation.blocks_inj.1
    rw [hblocks]
    rfl
  . rw [hdelimiters]

theorem truncate_eq_self {state : State} {capacity : Nat} (hsize : state.delimiters.size ≤ 255)
    (hbytes : 1 + state.delimiters.size + levelBytes state.indents.blocks ≤ capacity) :
    state.truncate capacity = state := by
  have hdelimiters : state.savedDelimiters capacity = state.delimiters.toList := by
    apply List.take_of_length_le
    rw [Array.length_toList]
    omega
  apply State.ext
  . apply Indentation.blocks_inj.1
    rw [blocks_truncate, savedBlocks, hdelimiters, Array.length_toList]
    apply fitting_of_levelBytes_le
    omega
  . apply Array.toList_inj.1
    rw [toList_delimiters_truncate, hdelimiters]

theorem decode_encode_eq_read (state : State) {capacity : Nat} (h : capacity ≠ 0) :
    decode (state.encode capacity) capacity = (do
      let delimiters ← readDelimiters 0 ((state.savedDelimiters capacity).map Delimiter.bits)
      let indents ← readBlocks .base ((state.savedBlocks capacity).flatMap Varint.encode)
      return { indents, delimiters := delimiters.toArray }) := by
  have hle := length_encode_le state capacity
  have hcount : (state.savedDelimiters capacity).length ≤ 255 := by
    rw [savedDelimiters, List.length_take]
    omega
  rw [encode_eq_cons state h] at hle ⊢
  rw [List.length_cons, List.length_append] at hle
  -- The first byte does not overflow, so that it separates what the writer has put together
  apply decode_cons_append
  . rw [UInt8.toNat_ofNat', List.length_map]
    omega
  . omega

theorem decode_encode_of_wellFormed {state : State} {capacity : Nat}
    (h : ∀ delimiter ∈ (state.truncate capacity).delimiters, delimiter.WellFormed) :
    decode (state.encode capacity) capacity = .ok (state.truncate capacity) := by
  cases capacity with
  | zero => rw [encode_zero, truncate_zero, decode]
  | succ capacity =>
    rw [decode_encode_eq_read state (by omega), ← toList_delimiters_truncate, ← blocks_truncate]
    rw [readDelimiters_map_bits, readBlocks_flatMap_encode]
    . rfl
    . apply Indentation.toList_eq_cons
    . intro delimiter hmem
      apply h
      apply Array.mem_toList_iff.1 hmem

theorem decode_encode_of_refused {state : State} {capacity : Nat} {before after : List Delimiter}
    {refused : Delimiter}
    (hkept : (state.truncate capacity).delimiters.toList = before ++ refused :: after)
    (hbefore : ∀ delimiter ∈ before, delimiter.WellFormed) (hrefused : ¬ refused.WellFormed) :
    decode (state.encode capacity) capacity
      =
    .error (.invalidDelimiter before.length refused.bits) := by
  cases capacity with
  | zero => simp [truncate_zero] at hkept
  | succ capacity =>
    rw [decode_encode_eq_read state (by omega), ← toList_delimiters_truncate, hkept]
    rw [readDelimiters_refused 0 hbefore hrefused, Nat.zero_add]
    rfl

theorem decode_encode_of_fits {state : State} {capacity : Nat}
    (h : ∀ delimiter ∈ state.delimiters, delimiter.WellFormed) (hsize : state.delimiters.size ≤ 255)
    (hbytes : 1 + state.delimiters.size + levelBytes state.indents.blocks ≤ capacity) :
    decode (state.encode capacity) capacity = .ok state := by
  have hself := truncate_eq_self hsize hbytes
  have hdecode := @decode_encode_of_wellFormed state capacity
  rw [hself] at hdecode
  apply hdecode h

theorem decode_encode (state : State) (capacity : Nat) :
    ∃ kept, IsTruncation state capacity kept ∧
      (capacity = 0 → kept = {}) ∧
      ((∀ delimiter ∈ kept.delimiters, delimiter.WellFormed) →
        decode (state.encode capacity) capacity = .ok kept ∧
          kept.encode capacity = state.encode capacity) ∧
      (∀ before refused after,
        kept.delimiters.toList = before ++ refused :: after →
        (∀ delimiter ∈ before, delimiter.WellFormed) →
        ¬ refused.WellFormed →
        decode (state.encode capacity) capacity
          =
        .error (.invalidDelimiter before.length refused.bits)) ∧
      ((∀ delimiter ∈ state.delimiters, delimiter.WellFormed) →
        state.delimiters.size ≤ 255 →
        1 + state.delimiters.size + levelBytes state.indents.blocks ≤ capacity →
        decode (state.encode capacity) capacity = .ok state) := by
  refine ⟨state.truncate capacity, ?_, ?_, ?_, ?_, ?_⟩
  . apply isTruncation_truncate
  . rintro rfl
    apply truncate_zero
  . intro hall
    constructor
    . apply decode_encode_of_wellFormed hall
    . apply encode_truncate
  . intro before refused after hkept hbefore hrefused
    apply decode_encode_of_refused hkept hbefore hrefused
  . intro hall hsize hbytes
    apply decode_encode_of_fits hall hsize hbytes

example :
    let indents : Indentation := .push .base 4 (by decide)
    let state : State := { indents := indents.push 300 (by decide), delimiters := #[⟨0x11⟩] }
    (decode (state.encode 4) 4).toOption = some { indents, delimiters := #[⟨0x11⟩] } := by
  decide +kernel

end State

end Offside
