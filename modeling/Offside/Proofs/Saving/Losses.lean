import Offside.Proofs.Saving.RoundTrip

/-!
This module contains the proof that saving a state warns of exactly the parts of it that reading the
saved bytes does not bring back.
-/

namespace Offside

def Event.IsWarning (event : Event) : Prop :=
  "WARN ".toList <+: event.line.toList

theorem Event.isWarning_of_line_eq {event : Event} {start rest : String}
    (hline : event.line = start ++ rest) (hstart : "WARN ".toList <+: start.toList) :
    event.IsWarning := by
  rw [IsWarning, hline, String.toList_append]
  apply hstart.trans (List.prefix_append _ _)

theorem Event.isWarning_noRoom : noRoom.IsWarning := by
  apply isWarning_of_line_eq String.append_empty.symm
  decide +kernel

theorem Event.isWarning_delimitersTruncated (total written : Nat) :
    (delimitersTruncated total written).IsWarning := by
  apply isWarning_of_line_eq ((String.append_assoc ..).trans (String.append_assoc ..))
  decide +kernel

theorem Event.isWarning_blocksTruncated (total written : Nat) :
    (blocksTruncated total written).IsWarning := by
  apply isWarning_of_line_eq ((String.append_assoc ..).trans (String.append_assoc ..))
  decide +kernel

namespace State

variable {state : State} {capacity : Nat}

theorem size_delimiters_truncate (state : State) (capacity : Nat) :
    (state.truncate capacity).delimiters.size = (state.savedDelimiters capacity).length := by
  rw [← Array.length_toList, toList_delimiters_truncate]

theorem depth_truncate (state : State) (capacity : Nat) :
    (state.truncate capacity).indents.depth = (state.savedBlocks capacity).length := by
  rw [← Indentation.length_blocks, blocks_truncate]

theorem truncate_eq_self_iff :
    state.truncate capacity = state ↔
      state.delimiters.size ≤ (state.truncate capacity).delimiters.size ∧
        state.indents.depth ≤ (state.truncate capacity).indents.depth := by
  constructor
  . intro h
    rw [h]
    exact ⟨Nat.le_refl _, Nat.le_refl _⟩
  -- Both stacks keep their outermost entries, so that it is enough to compare lengths
  . rintro ⟨hsize, hdepth⟩
    apply State.ext
    . apply Indentation.blocks_inj.1
      apply List.IsPrefix.eq_of_length_le
      . exact (isTruncation_truncate state capacity).blocks.isPrefix
      . simpa using hdepth
    . apply Array.toList_inj.1
      apply List.IsPrefix.eq_of_length_le
      . rw [toList_delimiters_truncate]
        apply List.take_prefix
      . simpa using hsize

theorem warnings_zero (state : State) :
    state.warnings 0 = if state = {} then [] else [.noRoom] := by
  rw [warnings, if_pos rfl]
  simp only [isInitial_iff]

theorem warnings_eq_append (state : State) (h : capacity ≠ 0) :
    state.warnings capacity =
      (if (state.truncate capacity).delimiters.size < state.delimiters.size then
        [.delimitersTruncated state.delimiters.size (state.truncate capacity).delimiters.size]
      else
        []) ++
      (if (state.truncate capacity).indents.depth < state.indents.depth then
        [.blocksTruncated state.indents.depth (state.truncate capacity).indents.depth]
      else
        []) := by
  rw [warnings, if_neg h, size_delimiters_truncate, depth_truncate]

theorem isWarning_of_mem_warnings {event : Event} (h : event ∈ state.warnings capacity) :
    event.IsWarning := by
  cases Nat.eq_zero_or_pos capacity with
  | inl hzero =>
    rw [hzero, warnings_zero] at h
    split at h
    . contradiction
    . rw [List.mem_singleton.1 h]
      exact Event.isWarning_noRoom
  | inr hpos =>
    rw [warnings_eq_append state (Nat.ne_of_gt hpos), List.mem_append] at h
    cases h with
    | inl h =>
      split at h
      . rw [List.mem_singleton.1 h]
        apply Event.isWarning_delimitersTruncated
      . contradiction
    | inr h =>
      split at h
      . rw [List.mem_singleton.1 h]
        apply Event.isWarning_blocksTruncated
      . contradiction

theorem warnings_eq_nil_iff : state.warnings capacity = [] ↔ state.truncate capacity = state := by
  cases Nat.eq_zero_or_pos capacity with
  | inl hzero =>
    rw [hzero, warnings_zero, truncate_zero]
    simp [eq_comm]
  | inr hpos =>
    rw [warnings_eq_append state (Nat.ne_of_gt hpos), truncate_eq_self_iff]
    simp

theorem save_reports_losses (capacity : Nat)
    (h : ∀ delimiter ∈ state.delimiters, delimiter.WellFormed) :
    ∃ kept, decode (state.save capacity).value capacity = .ok kept ∧
      ((∀ event ∈ (state.save capacity).events, ¬ event.IsWarning) ↔
        decode (state.save capacity).value capacity = .ok state) ∧
      (capacity = 0 →
        (state.save capacity).events = if state = {} then [] else [.noRoom]) ∧
      (capacity ≠ 0 →
        (state.save capacity).events =
          (if kept.delimiters.size < state.delimiters.size then
            [.delimitersTruncated state.delimiters.size kept.delimiters.size]
          else
            []) ++
          (if kept.indents.depth < state.indents.depth then
            [.blocksTruncated state.indents.depth kept.indents.depth]
          else
            [])) := by
  have hkept : ∀ delimiter ∈ (state.truncate capacity).delimiters, delimiter.WellFormed := by
    intro delimiter hmem
    rw [← Array.mem_toList_iff, toList_delimiters_truncate] at hmem
    apply h delimiter
    apply Array.mem_toList_iff.1
    apply List.mem_of_mem_take hmem
  have hdecode : decode (state.save capacity).value capacity = .ok (state.truncate capacity) :=
    decode_encode_of_wellFormed hkept
  refine ⟨state.truncate capacity, hdecode, ?_, ?_, warnings_eq_append state⟩
  . rw [hdecode, Except.ok.injEq, ← warnings_eq_nil_iff, List.eq_nil_iff_forall_not_mem]
    constructor
    . intro hsilent event hmem
      apply hsilent event hmem
      apply isWarning_of_mem_warnings hmem
    . intro hnil event hmem
      exact absurd hmem (hnil event)
  . rintro rfl
    apply warnings_zero

theorem save_reports_losses_three_bytes :
    let state : State :=
      {
        indents := .push .base 300 (by decide)
        delimiters := #[⟨0x11⟩, ⟨0x22⟩, ⟨0x04⟩]
      }
    (∀ delimiter ∈ state.delimiters, delimiter.WellFormed) ∧
      decode (state.save 3).value 3 = .ok { delimiters := #[⟨0x11⟩, ⟨0x22⟩] } ∧
      (state.save 3).events = [.delimitersTruncated 3 2, .blocksTruncated 1 0] := by
  intro state
  have h : ∀ delimiter ∈ state.delimiters, delimiter.WellFormed := by
    decide
  obtain ⟨kept, hdecode, _, _, hevents⟩ := save_reports_losses 3 h
  have hkept : (decode (state.save 3).value 3).toOption
      = some { delimiters := #[⟨0x11⟩, ⟨0x22⟩] } := by
    decide +kernel
  rw [hdecode] at hkept
  obtain rfl := Option.some.inj hkept
  exact ⟨h, hdecode, hevents (by decide)⟩

end State

end Offside
