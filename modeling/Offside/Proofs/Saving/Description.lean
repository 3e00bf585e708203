import Offside.Datum
import Offside.Proofs.Margins.Validation

/-!
This module contains the proof that a state is read from exactly the data that describe it, and that
levels which are no margins are refused with the first fault that they have.
-/

namespace Offside

namespace Datum

theorem ok_bind {α β : Type} (value : α) (next : α → Except Error β) :
    Except.ok value >>= next = next value := rfl

theorem bind_eq_ok_iff {α β : Type} {result : Except Error α} {next : α → Except Error β} {value : β} :
    result >>= next = .ok value ↔ ∃ first, result = .ok first ∧ next first = .ok value := by
  cases result with
  | error => simp [bind, Except.bind]
  | ok => simp [bind, Except.bind]

theorem toNat_eq_ok_iff {datum : Datum} {bound value : Nat} :
    datum.toNat bound = .ok value ↔ datum = .int value ∧ value < bound := by
  constructor
  . intro h
    unfold toNat at h
    split at h
    . next number =>
      split at h
      . have := Except.ok.inj h
        rw [int.injEq]
        omega
      . contradiction
    . contradiction
  . rintro ⟨rfl, h⟩
    apply toNat_int h

theorem toItems_eq_ok_iff {datum : Datum} {items : List Datum} :
    datum.toItems = .ok items ↔ datum = .array items := by
  cases datum <;> simp [toItems]

section

variable {α : Type} {read : Datum → Except Error α} {write : α → Datum} {Accepted : α → Prop}

theorem mapM_eq_ok_iff
    (h : ∀ datum value, read datum = .ok value ↔ datum = write value ∧ Accepted value)
    {items : List Datum} {values : List α} :
    items.mapM read = .ok values ↔ items = values.map write ∧ ∀ value ∈ values, Accepted value := by
  induction items generalizing values with
  | nil =>
    rw [List.mapM_nil]
    cases values <;> simp [pure, Except.pure]
  | cons datum items ih =>
    rw [List.mapM_cons, bind_eq_ok_iff]
    constructor
    . rintro ⟨value, hvalue, hrest⟩
      obtain ⟨rest, hitems, hvalues⟩ := bind_eq_ok_iff.1 hrest
      obtain ⟨rfl, haccepted⟩ := (h datum value).1 hvalue
      obtain ⟨rfl, hall⟩ := ih.1 hitems
      rw [← Except.ok.inj hvalues, List.map_cons, List.forall_mem_cons]
      exact ⟨rfl, haccepted, hall⟩
    . rintro ⟨hitems, hall⟩
      cases values with
      | nil => contradiction
      | cons value values =>
        rw [List.map_cons, List.cons.injEq] at hitems
        rw [List.forall_mem_cons] at hall
        refine ⟨value, (h datum value).2 ⟨hitems.1, hall.1⟩, ?_⟩
        exact bind_eq_ok_iff.2 ⟨values, ih.2 ⟨hitems.2, hall.2⟩, rfl⟩

theorem lookup_mapM_eq_ok_iff (h : ∀ datum value, read datum = .ok value ↔ datum = write value)
    {datum? : Option Datum} {value : α} :
    datum?.mapM read = .ok (some value) ↔ datum? = some (write value) := by
  cases datum? with
  | none => simp [pure, Except.pure]
  | some datum =>
    rw [Option.some.injEq, ← h, Option.mapM_some]
    cases hread : read datum with
    | error => simp [Functor.map, Except.map]
    | ok other => simp [Functor.map, Except.map]

end

end Datum

open Datum

namespace Delimiter

theorem ofDatum_eq_ok_iff {datum : Datum} {delimiter : Delimiter} :
    ofDatum datum = .ok delimiter ↔ datum = delimiter.toDatum := by
  constructor
  . intro h
    obtain ⟨value, hvalue, hdelimiter⟩ := bind_eq_ok_iff.1 h
    obtain ⟨rfl, hlt⟩ := toNat_eq_ok_iff.1 hvalue
    rw [← Except.ok.inj hdelimiter, toDatum, UInt8.toNat_ofNat_of_lt' hlt]
  . rintro rfl
    apply ofDatum_toDatum

theorem arrayOfDatum_eq_ok_iff {datum : Datum} {delimiters : Array Delimiter} :
    arrayOfDatum datum = .ok delimiters ↔ datum = arrayToDatum delimiters := by
  have hmap : ∀ {items : List Datum} {values : List Delimiter},
      items.mapM ofDatum = .ok values ↔ items = values.map toDatum ∧ ∀ value ∈ values, True :=
    mapM_eq_ok_iff (by simp [ofDatum_eq_ok_iff])
  unfold arrayOfDatum arrayToDatum
  rw [bind_eq_ok_iff]
  constructor
  . rintro ⟨items, hitems, hrest⟩
    obtain ⟨values, hvalues, hdelimiters⟩ := bind_eq_ok_iff.1 hrest
    rw [toItems_eq_ok_iff.1 hitems, (hmap.1 hvalues).1, ← Except.ok.inj hdelimiters,
      List.toList_toArray]
  . intro h
    refine ⟨_, toItems_eq_ok_iff.2 h, ?_⟩
    exact bind_eq_ok_iff.2 ⟨delimiters.toList, hmap.2 ⟨rfl, by simp⟩, rfl⟩

end Delimiter

namespace Indentation

theorem mapM_toNat_levels (levels : List UInt32) :
    (levels.map fun level => Datum.int level.toNat).mapM (toNat UInt32.size)
      =
    .ok (levels.map UInt32.toNat) := by
  rw [mapM_eq_ok_iff fun datum value => toNat_eq_ok_iff]
  constructor
  . rw [List.map_map]
    rfl
  . intro value hmem
    obtain ⟨level, _, rfl⟩ := List.mem_map.1 hmem
    exact level.toNat_lt

theorem ofDatum_levels (levels : List UInt32) :
    ofDatum (.array (levels.map fun level => .int level.toNat))
      =
    (ofList? levels).mapError .refused := by
  have hlevels : (levels.map UInt32.toNat).map UInt32.ofNat = levels := by
    rw [List.map_map]
    apply List.map_id''
    intro level
    exact UInt32.ofNat_toNat
  rw [ofDatum, toItems, ok_bind, mapM_toNat_levels, ok_bind, hlevels]

theorem ofDatum_eq_ok_iff {datum : Datum} {indents : Indentation} :
    ofDatum datum = .ok indents ↔ datum = indents.toDatum := by
  constructor
  . intro h
    obtain ⟨items, hitems, hrest⟩ := bind_eq_ok_iff.1 h
    obtain ⟨values, hvalues, hlevels⟩ := bind_eq_ok_iff.1 hrest
    obtain ⟨rfl, hbounds⟩ := (mapM_eq_ok_iff fun datum value => toNat_eq_ok_iff).1 hvalues
    cases hlist : ofList? (values.map UInt32.ofNat) with
    | error fault =>
      rw [hlist] at hlevels
      contradiction
    | ok other =>
      rw [hlist] at hlevels
      obtain rfl := Except.ok.inj hlevels
      rw [toItems_eq_ok_iff.1 hitems, toDatum, ofList?_eq_ok_iff.1 hlist, List.map_map,
        array.injEq]
      apply List.map_congr_left
      intro value hmem
      rw [Function.comp_apply, UInt32.toNat_ofNat_of_lt' (hbounds value hmem)]
  . rintro rfl
    rw [toDatum, ofDatum_levels, ofList?_eq_ok_iff.2 rfl]
    rfl

end Indentation

namespace State

inductive IsDescribed (state : State) : Datum → Prop
  | object {fields : List (String × Datum)}
    (hindents : fields.lookup "indents" = some state.indents.toDatum)
    (hdelimiters : fields.lookup "delimiters" = some (Delimiter.arrayToDatum state.delimiters)) :
    IsDescribed state (.object fields)
  | array : IsDescribed state (.array [state.indents.toDatum, Delimiter.arrayToDatum state.delimiters])

theorem ofDatum_object_eq_ok_iff {fields : List (String × Datum)} {state : State} :
    ofDatum (.object fields) = .ok state ↔
      fields.lookup "indents" = some state.indents.toDatum ∧
        fields.lookup "delimiters" = some (Delimiter.arrayToDatum state.delimiters) := by
  rw [← lookup_mapM_eq_ok_iff fun datum value => Indentation.ofDatum_eq_ok_iff]
  rw [← lookup_mapM_eq_ok_iff fun datum value => Delimiter.arrayOfDatum_eq_ok_iff]
  rw [ofDatum, bind_eq_ok_iff]
  constructor
  . rintro ⟨delimiters?, hdelimiters, hrest⟩
    obtain ⟨indents?, hindents, hstate⟩ := bind_eq_ok_iff.1 hrest
    split at hstate
    . next indents delimiters =>
      obtain rfl := Except.ok.inj hstate
      exact ⟨hindents, hdelimiters⟩
    . contradiction
  . rintro ⟨hindents, hdelimiters⟩
    exact ⟨_, hdelimiters, bind_eq_ok_iff.2 ⟨_, hindents, rfl⟩⟩

theorem ofDatum_array_eq_ok_iff {items : List Datum} {state : State} :
    ofDatum (.array items) = .ok state ↔
      items = [state.indents.toDatum, Delimiter.arrayToDatum state.delimiters] := by
  cases items with
  | nil => simp [ofDatum]
  | cons first items =>
    rw [ofDatum, bind_eq_ok_iff]
    cases items with
    | nil => simp
    | cons second rest =>
      constructor
      . rintro ⟨indents, hindents, hrest⟩
        obtain ⟨delimiters, hdelimiters, hstate⟩ := bind_eq_ok_iff.1 hrest
        rw [Indentation.ofDatum_eq_ok_iff] at hindents
        rw [Delimiter.arrayOfDatum_eq_ok_iff] at hdelimiters
        split at hstate
        . next hempty =>
          obtain rfl := Except.ok.inj hstate
          rw [List.isEmpty_iff] at hempty
          rw [hindents, hdelimiters, hempty]
        . contradiction
      . intro h
        simp only [List.cons.injEq] at h
        obtain ⟨rfl, rfl, rfl⟩ := h
        refine ⟨_, Indentation.ofDatum_eq_ok_iff.2 rfl, ?_⟩
        exact bind_eq_ok_iff.2 ⟨_, Delimiter.arrayOfDatum_eq_ok_iff.2 rfl, rfl⟩

theorem ofDatum_eq_ok_iff {datum : Datum} {state : State} :
    ofDatum datum = .ok state ↔ IsDescribed state datum := by
  constructor
  . intro h
    cases datum with
    | object fields =>
      obtain ⟨hindents, hdelimiters⟩ := ofDatum_object_eq_ok_iff.1 h
      exact .object hindents hdelimiters
    | array items =>
      obtain rfl := ofDatum_array_eq_ok_iff.1 h
      exact .array
    | _ => simp [ofDatum] at h
  . intro h
    cases h with
    | object hindents hdelimiters => exact ofDatum_object_eq_ok_iff.2 ⟨hindents, hdelimiters⟩
    | array => exact ofDatum_array_eq_ok_iff.2 rfl

theorem ofDatum_accepts_stacks :
    (∀ levels : List UInt32,
      ((∃ indents, Indentation.ofList? levels = .ok indents) ↔ Indentation.IsStack levels) ∧
      (∀ indents, Indentation.ofList? levels = .ok indents →
        indents.toList = levels ∧ Indentation.ascends indents.toList = true) ∧
      (∀ fault, Indentation.ofList? levels = .error fault ↔
        (levels.head? ≠ some 0 ∧ fault = .missingBase) ∨
          levels.head? = some 0 ∧ ∃ depth level,
            Indentation.IsFirstFall levels depth level ∧ fault = .nonIncreasing depth level) ∧
      Indentation.ofDatum (.array (levels.map fun level => .int level.toNat))
        = (Indentation.ofList? levels).mapError .refused) ∧
    (∀ state : State,
      ofDatum state.toDatum = .ok state ∧
      ofDatum (.array [state.indents.toDatum, Delimiter.arrayToDatum state.delimiters]) = .ok state) ∧
    (∀ (datum : Datum) (state : State), ofDatum datum = .ok state →
      Indentation.ascends state.indents.toList = true ∧ IsDescribed state datum) := by
  refine ⟨?_, ?_, ?_⟩
  . intro levels
    refine ⟨Indentation.exists_ofList?_eq_ok_iff, ?_, fun fault => Indentation.ofList?_eq_error_iff,
      Indentation.ofDatum_levels levels⟩
    intro indents h
    rw [Indentation.ascends_iff_isStack]
    exact ⟨Indentation.ofList?_eq_ok_iff.1 h, indents.isStack_toList⟩
  . intro state
    constructor
    . exact ofDatum_eq_ok_iff.2 (.object rfl rfl)
    . exact ofDatum_eq_ok_iff.2 .array
  . intro datum state h
    rw [Indentation.ascends_iff_isStack]
    exact ⟨state.indents.isStack_toList, ofDatum_eq_ok_iff.1 h⟩

end State

end Offside
