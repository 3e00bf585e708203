import Offside.Proofs.Saving.RoundTrip

/-!
This module contains the proof that levels are taken for margins exactly if they start at column 0
and strictly increase, and that otherwise the first fault that they have is the one that is named.
-/

namespace Offside

namespace Indentation

def ascends (levels : List UInt32) : Bool :=
  levels.head? == some 0 && (levels.zip levels.tail).all fun (outer, inner) => outer < inner

structure IsFirstFall (levels : List UInt32) (depth : Nat) (level : UInt32) : Prop where
  one_le : 1 ≤ depth
  level_eq : levels[depth]? = some level
  falls : ∃ outer, levels[depth - 1]? = some outer ∧ level ≤ outer
  first : ∀ earlier outer inner, 1 ≤ earlier → earlier < depth →
    levels[earlier - 1]? = some outer → levels[earlier]? = some inner → outer < inner

variable {indents inner : Indentation} {levels : List UInt32}

theorem all_zip_tail_iff :
    ((levels.zip levels.tail).all fun (outer, inner) => outer < inner) = true
      ↔
    levels.Pairwise (· < ·) := by
  induction levels with
  | nil => simp
  | cons outer levels ih =>
    cases levels with
    | nil => simp
    | cons inner levels =>
      rw [List.tail_cons] at ih ⊢
      rw [List.zip_cons_cons, List.all_cons, Bool.and_eq_true, ih, decide_eq_true_iff]
      constructor
      . rintro ⟨hlt, hinner⟩
        rw [List.pairwise_cons]
        refine ⟨?_, hinner⟩
        intro level hmem
        cases List.mem_cons.1 hmem with
        | inl heq => rwa [heq]
        | inr hmem => exact UInt32.lt_trans hlt (List.rel_of_pairwise_cons hinner hmem)
      . intro h
        exact ⟨List.rel_of_pairwise_cons h (List.mem_cons_self ..), List.Pairwise.of_cons h⟩

theorem ascends_iff_isStack : ascends levels = true ↔ IsStack levels := by
  rw [ascends, Bool.and_eq_true, beq_iff_eq, all_zip_tail_iff]
  rfl

theorem IsStack.getElem?_lt {outer level : UInt32} {depth other : Nat} (h : IsStack levels)
    (hlt : depth < other) (houter : levels[depth]? = some outer)
    (hlevel : levels[other]? = some level) : outer < level := by
  obtain ⟨_, rfl⟩ := List.getElem?_eq_some_iff.1 houter
  obtain ⟨_, rfl⟩ := List.getElem?_eq_some_iff.1 hlevel
  apply List.pairwise_iff_getElem.1 h.2
  exact hlt

theorem getElem?_size_sub_one (indents : Indentation) :
    indents.toList[indents.size - 1]? = some indents.top := by
  rw [← length_toList, ← List.getLast?_eq_getElem?, getLast?_toList]

theorem pushAll_eq_ok_iff :
    indents.pushAll levels = .ok inner ↔ inner.toList = indents.toList ++ levels := by
  induction levels generalizing indents with
  | nil =>
    rw [pushAll, List.append_nil, toList_inj, Except.ok.injEq]
    exact eq_comm
  | cons level levels ih =>
    unfold pushAll
    split
    . next middle hpush =>
      rw [ih, (push?_eq_some_iff.1 hpush).2, List.append_assoc, List.singleton_append]
    . next hpush =>
      rw [push?_eq_none_iff] at hpush
      constructor
      . intro h
        contradiction
      . intro h
        have htop := top_lt_of_toList_eq_append_cons h
        exact absurd hpush (UInt32.not_le.2 htop)

theorem exists_append_of_pushAll {fault : Fault} (h : indents.pushAll levels = .error fault) :
    ∃ (before after : List UInt32) (level : UInt32) (inner : Indentation),
      levels = before ++ level :: after ∧ inner.toList = indents.toList ++ before ∧
        level ≤ inner.top ∧ fault = .nonIncreasing inner.size level := by
  induction levels generalizing indents with
  | nil => contradiction
  | cons level levels ih =>
    unfold pushAll at h
    split at h
    . next middle hpush =>
      obtain ⟨before, after, fall, inner, rfl, hinner, hfall, hfault⟩ := ih h
      refine ⟨level :: before, after, fall, inner, rfl, ?_, hfall, hfault⟩
      rw [hinner, (push?_eq_some_iff.1 hpush).2, List.append_assoc, List.singleton_append]
    . next hpush =>
      have hsize := one_le_size indents
      refine ⟨[], levels, level, indents, rfl, ?_, ?_, ?_⟩
      . rw [List.append_nil]
      . exact push?_eq_none_iff.1 hpush
      . rw [← Except.error.inj h, depth, Nat.sub_add_cancel hsize]

theorem ofList?_cons_zero (blocks : List UInt32) :
    ofList? (0 :: blocks) = pushAll base blocks := rfl

theorem ofList?_of_head?_ne (h : levels.head? ≠ some 0) : ofList? levels = .error .missingBase := by
  unfold ofList?
  split
  . simp at h
  . rfl

theorem ofList?_eq_ok_iff : ofList? levels = .ok indents ↔ indents.toList = levels := by
  cases Decidable.em (levels.head? = some 0) with
  | inl hbase =>
    obtain ⟨blocks, rfl⟩ := List.head?_eq_some_iff.1 hbase
    rw [ofList?_cons_zero, pushAll_eq_ok_iff]
    rfl
  | inr hbase =>
    rw [ofList?_of_head?_ne hbase]
    constructor
    . intro h
      contradiction
    . rintro rfl
      exact absurd (isStack_toList indents).1 hbase

theorem exists_ofList?_eq_ok_iff : (∃ indents, ofList? levels = .ok indents) ↔ IsStack levels := by
  constructor
  . rintro ⟨indents, h⟩
    rw [← ofList?_eq_ok_iff.1 h]
    apply isStack_toList
  . intro h
    exact ⟨⟨levels.toArray, h⟩, ofList?_eq_ok_iff.2 rfl⟩

theorem IsFirstFall.of_append {before after : List UInt32} {level : UInt32}
    (h : inner.toList = before) (hfall : level ≤ inner.top) :
    IsFirstFall (before ++ level :: after) inner.size level := by
  have hsize := one_le_size inner
  have hlength := length_toList inner
  rw [h] at hlength
  refine ⟨hsize, ?_, ⟨inner.top, ?_, hfall⟩, ?_⟩
  . rw [← hlength, List.getElem?_append_right (Nat.le_refl _), Nat.sub_self]
    rfl
  . rw [List.getElem?_append_left (by omega), ← h, getElem?_size_sub_one]
  . intro earlier outer level hpos hlt houter hlevel
    rw [List.getElem?_append_left (by omega), ← h] at houter hlevel
    exact inner.isStack_toList.getElem?_lt (by omega) houter hlevel

theorem IsFirstFall.not_isStack {depth : Nat} {level : UInt32} (h : IsFirstFall levels depth level) :
    ¬ IsStack levels := by
  intro hstack
  obtain ⟨outer, houter, hle⟩ := h.falls
  have hpos := h.one_le
  have hlt := hstack.getElem?_lt (by omega) houter h.level_eq
  exact absurd hle (UInt32.not_le.2 hlt)

theorem IsFirstFall.le {depth other : Nat} {level fall : UInt32}
    (h : IsFirstFall levels depth level) (hother : IsFirstFall levels other fall) :
    depth ≤ other := by
  rw [← Nat.not_lt]
  intro hlt
  obtain ⟨outer, houter, hle⟩ := hother.falls
  have houter := h.first other outer fall hother.one_le hlt houter hother.level_eq
  exact absurd hle (UInt32.not_le.2 houter)

theorem IsFirstFall.unique {depth other : Nat} {level fall : UInt32}
    (h : IsFirstFall levels depth level) (hother : IsFirstFall levels other fall) :
    depth = other ∧ level = fall := by
  have hdepth : depth = other := Nat.le_antisymm (h.le hother) (hother.le h)
  subst hdepth
  have hlevel := h.level_eq
  rw [hother.level_eq] at hlevel
  exact ⟨rfl, (Option.some.inj hlevel).symm⟩

theorem ofList?_eq_error_iff {fault : Fault} :
    ofList? levels = .error fault ↔
      (levels.head? ≠ some 0 ∧ fault = .missingBase) ∨
        levels.head? = some 0 ∧
          ∃ depth level, IsFirstFall levels depth level ∧ fault = .nonIncreasing depth level := by
  cases Decidable.em (levels.head? = some 0) with
  | inl hbase =>
    have hfall : ∀ fault, ofList? levels = .error fault →
        ∃ depth level, IsFirstFall levels depth level ∧ fault = .nonIncreasing depth level := by
      intro fault h
      obtain ⟨blocks, rfl⟩ := List.head?_eq_some_iff.1 hbase
      rw [ofList?_cons_zero] at h
      obtain ⟨before, after, level, inner, rfl, hinner, hle, hfault⟩ := exists_append_of_pushAll h
      exact ⟨inner.size, level, IsFirstFall.of_append hinner hle, hfault⟩
    simp only [hbase, ne_eq, not_true_eq_false, false_and, true_and, false_or]
    constructor
    . apply hfall
    . rintro ⟨depth, level, h, rfl⟩
      cases hresult : ofList? levels with
      | ok indents => exact absurd (exists_ofList?_eq_ok_iff.1 ⟨indents, hresult⟩) h.not_isStack
      | error fault =>
        obtain ⟨other, fall, hother, rfl⟩ := hfall fault hresult
        obtain ⟨rfl, rfl⟩ := h.unique hother
        rfl
  | inr hbase =>
    rw [ofList?_of_head?_ne hbase]
    simp [hbase, eq_comm]

example : ofList? [0, 4, 12, 8, 16, 4] = .error (.nonIncreasing 3 8) := by
  rfl

end Indentation

end Offside
