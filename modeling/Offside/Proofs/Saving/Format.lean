import Offside.Proofs.Saving.Levels

/-!
This module contains the format of saved states, and the proof that a state is read from exactly the
bytes in this format and that all other bytes are refused with the first fault that they have.
-/

namespace Offside

structure Delimiter.IsFlags (bits : UInt8) : Prop where
  high : bits.toNat < 0x80
  low : [0, 1, 2].countP bits.toNat.testBit = 1

theorem Delimiter.wellFormed_iff_isFlags {delimiter : Delimiter} :
    delimiter.WellFormed ↔ IsFlags delimiter.bits := by
  have hall : ∀ value < 256, WellFormed ⟨.ofNat value⟩ ↔
      value < 0x80 ∧ [0, 1, 2].countP value.testBit = 1 := by
    decide +kernel
  have hdelimiter := hall delimiter.bits.toNat delimiter.bits.toNat_lt
  rw [UInt8.ofNat_toNat] at hdelimiter
  rw [hdelimiter]
  constructor
  . intro h
    exact ⟨h.1, h.2⟩
  . intro h
    exact ⟨h.high, h.low⟩

namespace State

open Varint

structure Sections (capacity : Nat) (bytes : List UInt8) (delimiters : List Delimiter)
    (levels : List UInt8) : Prop where
  length_le : bytes.length ≤ capacity
  bytes_eq : bytes = .ofNat delimiters.length :: (delimiters.map Delimiter.bits ++ levels)
  length_lt : delimiters.length < 256

/--
What saved bytes are to be read as. Of several faults the first one counts, in the order of the bytes.
-/
inductive Reads (capacity : Nat) : List UInt8 → Except Fault State → Prop
  | initial : Reads capacity [] (.ok {})
  | oversized {bytes : List UInt8} (hne : bytes ≠ []) (h : capacity < bytes.length) :
    Reads capacity bytes (.error (.oversized bytes.length capacity))
  | truncated {count : UInt8} {rest : List UInt8} (hroom : (count :: rest).length ≤ capacity)
    (h : rest.length < count.toNat) :
    Reads capacity (count :: rest) (.error (.truncatedDelimiters count.toNat rest.length))
  | invalidDelimiter {bytes levels : List UInt8} {before after : List Delimiter}
    {refused : Delimiter} (hsections : Sections capacity bytes (before ++ refused :: after) levels)
    (hbefore : ∀ delimiter ∈ before, Delimiter.IsFlags delimiter.bits)
    (h : ¬ Delimiter.IsFlags refused.bits) :
    Reads capacity bytes (.error (.invalidDelimiter before.length refused.bits))
  | malformedLevel {bytes rest : List UInt8} {delimiters : List Delimiter} {codes : List Code}
    (hsections : Sections capacity bytes delimiters (codes.flatMap Code.bytes ++ rest))
    (hdelimiters : ∀ delimiter ∈ delimiters, Delimiter.IsFlags delimiter.bits)
    (hlevels : Indentation.IsStack (0 :: codes.map Code.level)) (hne : rest ≠ [])
    (h : IsUnreadable rest) :
    Reads capacity bytes (.error (.malformedLevel (codes.length + 1)))
  | nonIncreasing {bytes rest : List UInt8} {delimiters : List Delimiter} {codes : List Code}
    {code : Code}
    (hsections : Sections capacity bytes delimiters
      (codes.flatMap Code.bytes ++ (code.bytes ++ rest)))
    (hdelimiters : ∀ delimiter ∈ delimiters, Delimiter.IsFlags delimiter.bits)
    (hlevels : Indentation.IsStack (0 :: codes.map Code.level))
    (h : code.level ≤ (codes.map Code.level).getLastD 0) :
    Reads capacity bytes (.error (.nonIncreasing (codes.length + 1) code.level))
  | state {bytes : List UInt8} {codes : List Code} {state : State}
    (hsections : Sections capacity bytes state.delimiters.toList (codes.flatMap Code.bytes))
    (hdelimiters : ∀ delimiter ∈ state.delimiters, Delimiter.IsFlags delimiter.bits)
    (hlevels : state.indents.toList = 0 :: codes.map Code.level) :
    Reads capacity bytes (.ok state)

variable {capacity : Nat} {bytes levels rest : List UInt8} {delimiters : List Delimiter}
variable {codes : List Code}

theorem Sections.decode_eq (h : Sections capacity bytes delimiters levels) :
    decode bytes capacity = (do
      let delimiters ← readDelimiters 0 (delimiters.map Delimiter.bits)
      let indents ← readBlocks .base levels
      return { indents, delimiters := delimiters.toArray }) := by
  have hlength := h.length_le
  have hcount := h.length_lt
  rw [h.bytes_eq, List.length_cons, List.length_append] at hlength
  rw [h.bytes_eq]
  apply decode_cons_append
  . rw [UInt8.toNat_ofNat', List.length_map]
    omega
  . omega

theorem Sections.decode_eq_readBlocks (h : Sections capacity bytes delimiters levels)
    (hdelimiters : ∀ delimiter ∈ delimiters, Delimiter.IsFlags delimiter.bits) :
    decode bytes capacity = (do
      let indents ← readBlocks .base levels
      return { indents, delimiters := delimiters.toArray }) := by
  rw [h.decode_eq, readDelimiters_map_bits]
  . rfl
  . intro delimiter hmem
    rw [Delimiter.wellFormed_iff_isFlags]
    apply hdelimiters delimiter hmem

theorem exists_indents_of_isStack {levels : List UInt32} (h : Indentation.IsStack (0 :: levels)) :
    ∃ indents : Indentation, indents.toList = Indentation.base.toList ++ levels ∧
      indents.depth = levels.length ∧ indents.top = levels.getLastD 0 := by
  let indents : Indentation := ⟨(0 :: levels).toArray, h⟩
  have hlist : indents.toList = 0 :: levels := rfl
  refine ⟨indents, hlist, ?_, Indentation.top_eq_getLastD hlist⟩
  rw [← Indentation.length_blocks, Indentation.blocks, hlist, List.tail_cons]

theorem decode_of_reads {result : Except Fault State} (h : Reads capacity bytes result) :
    decode bytes capacity = result := by
  cases h with
  | initial => rw [decode]
  | oversized hne h =>
    cases bytes with
    | nil => contradiction
    | cons count rest => rw [decode, if_pos h]
  | truncated hroom h => rw [decode, if_neg (by omega), if_pos h]
  | invalidDelimiter hsections hbefore h =>
    rw [hsections.decode_eq, readDelimiters_refused 0, Nat.zero_add]
    . rfl
    . simpa only [Delimiter.wellFormed_iff_isFlags] using hbefore
    . simpa only [Delimiter.wellFormed_iff_isFlags] using h
  | malformedLevel hsections hdelimiters hlevels hne h =>
    obtain ⟨indents, hlist, hdepth, _⟩ := exists_indents_of_isStack hlevels
    rw [hsections.decode_eq_readBlocks hdelimiters, readBlocks_codes_append _ hlist,
      readBlocks_of_unreadable _ hne h, hdepth, List.length_map]
    rfl
  | nonIncreasing hsections hdelimiters hlevels h =>
    obtain ⟨indents, hlist, hdepth, htop⟩ := exists_indents_of_isStack hlevels
    rw [← htop] at h
    rw [hsections.decode_eq_readBlocks hdelimiters, readBlocks_codes_append _ hlist,
      readBlocks_code_append, Indentation.push?_eq_none_iff.2 h, hdepth, List.length_map]
    rfl
  | state hsections hdelimiters hlevels =>
    rw [← List.append_nil (List.flatMap _ _)] at hsections
    rw [hsections.decode_eq_readBlocks (by simpa using hdelimiters),
      readBlocks_codes_append _ hlevels, readBlocks]
    rfl

theorem exists_sections {count : UInt8} (hroom : (count :: rest).length ≤ capacity)
    (hcount : count.toNat ≤ rest.length) :
    ∃ delimiters levels, Sections capacity (count :: rest) delimiters levels := by
  refine ⟨(rest.take count.toNat).map Delimiter.mk, rest.drop count.toNat, hroom, ?_, ?_⟩
  . rw [List.length_map, List.length_take, Nat.min_eq_left hcount, UInt8.ofNat_toNat, List.map_map]
    simp [Function.comp_def]
  . have := count.toNat_lt
    rw [List.length_map, List.length_take]
    omega

theorem reads_of_sections (h : Sections capacity bytes delimiters levels)
    (hdelimiters : ∀ delimiter ∈ delimiters, Delimiter.IsFlags delimiter.bits) :
    ∃ result, Reads capacity bytes result := by
  obtain ⟨codes, indents, rest, rfl, hlist, hstop⟩ := exists_codes .base levels
  have hlevels : indents.toList = 0 :: codes.map Code.level := hlist
  have hstack := indents.isStack_toList
  rw [hlevels] at hstack
  rw [Indentation.top_eq_getLastD hlevels] at hstop
  cases hstop with
  | done =>
    rw [List.append_nil] at h
    refine ⟨.ok { indents, delimiters := delimiters.toArray }, .state h ?_ hlevels⟩
    simpa using hdelimiters
  | unreadable hne hrest => exact ⟨_, .malformedLevel h hdelimiters hstack hne hrest⟩
  | shallow code rest hlevel => exact ⟨_, .nonIncreasing h hdelimiters hstack hlevel⟩

theorem exists_reads (capacity : Nat) (bytes : List UInt8) :
    ∃ result, Reads capacity bytes result := by
  cases bytes with
  | nil => exact ⟨_, .initial⟩
  | cons count rest =>
    cases Nat.lt_or_ge capacity (count :: rest).length with
    | inl hlarge => exact ⟨_, .oversized (by simp) hlarge⟩
    | inr hroom =>
      cases Nat.lt_or_ge rest.length count.toNat with
      | inl htruncated => exact ⟨_, .truncated hroom htruncated⟩
      | inr hcount =>
        obtain ⟨delimiters, levels, hsections⟩ := exists_sections hroom hcount
        cases hrefused : delimiters.find? fun delimiter => ¬ delimiter.WellFormed with
        | none =>
          apply reads_of_sections hsections
          simpa [Delimiter.wellFormed_iff_isFlags] using hrefused
        | some refused =>
          obtain ⟨hflags, before, after, rfl, hbefore⟩ := List.find?_eq_some_iff_append.1 hrefused
          refine ⟨_, .invalidDelimiter hsections ?_ ?_⟩
          . simpa [Delimiter.wellFormed_iff_isFlags] using hbefore
          . simpa [Delimiter.wellFormed_iff_isFlags] using hflags

theorem isFlags_of_decode {state : State} (h : decode bytes capacity = .ok state) :
    ∀ delimiter ∈ state.delimiters, Delimiter.IsFlags delimiter.bits := by
  obtain ⟨result, hreads⟩ := exists_reads capacity bytes
  rw [decode_of_reads hreads] at h
  subst h
  cases hreads with
  | initial => simp
  | state _ hdelimiters => exact hdelimiters

theorem decode_eq_iff_reads {result : Except Fault State} :
    decode bytes capacity = result ↔ Reads capacity bytes result := by
  constructor
  . rintro rfl
    obtain ⟨result, h⟩ := exists_reads capacity bytes
    rw [decode_of_reads h]
    exact h
  . apply decode_of_reads

end State

end Offside
