import Offside.Proofs.Margins.Validation
import Offside.Proofs.Saving.Shortest

/-!
This module contains the proof that a level is found among the margins exactly if it is one of them,
whatever blocks were opened and closed and whatever margins were taken over or refused before.
-/

namespace Offside

namespace Varint

def decodeAll (bytes : List UInt8) : List UInt32 :=
  match _h : decode? bytes with
  | none => []
  | some (level, rest) => level :: decodeAll rest
termination_by bytes.length
decreasing_by exact length_lt_of_decode?_eq _h

theorem decodeAll_nil : decodeAll [] = [] := by
  rw [decodeAll]
  rfl

theorem decodeAll_bytes_append (code : Code) (rest : List UInt8) :
    decodeAll (code.bytes ++ rest) = code.level :: decodeAll rest := by
  have hdecode := decode?_bytes_append code rest
  rw [decodeAll]
  split
  . next hnone =>
    rw [hdecode] at hnone
    contradiction
  . next hsome =>
    rw [hdecode] at hsome
    cases hsome
    rfl

theorem decodeAll_flatMap_bytes (codes : List Code) :
    decodeAll (codes.flatMap Code.bytes) = codes.map Code.level := by
  induction codes with
  | nil => exact decodeAll_nil
  | cons code codes ih => rw [List.flatMap_cons, decodeAll_bytes_append, ih, List.map_cons]

end Varint

namespace State

theorem toList_indents_of_decode {bytes : List UInt8} {capacity : Nat} {state : State}
    (h : decode bytes capacity = .ok state) :
    state.indents.toList = 0 :: Varint.decodeAll (bytes.drop (1 + (bytes.headD 0).toNat)) := by
  cases bytes with
  | nil =>
    rw [decode, Except.ok.injEq] at h
    rw [← h, List.drop_nil, Varint.decodeAll_nil]
    rfl
  | cons count rest =>
    obtain ⟨codes, hsections, hblocks⟩ := exists_codes_of_decode (by simp) h
    have hcount := hsections.length_lt
    obtain ⟨rfl, rfl⟩ := List.cons.inj hsections.bytes_eq
    have hlength : 1 + (UInt8.ofNat state.delimiters.toList.length).toNat
        = (state.delimiters.toList.map Delimiter.bits).length + 1 := by
      rw [UInt8.toNat_ofNat_of_lt' hcount, List.length_map, Nat.add_comm]
    rw [List.headD_cons, hlength, List.drop_succ_cons, List.drop_left,
      Varint.decodeAll_flatMap_bytes, ← hblocks, Indentation.toList_eq_cons]

end State

namespace Indentation

section

variable {indents : Indentation} {level : UInt32}

theorem lt_of_levels_lt {outer inner : Nat} {houter : outer < indents.levels.size}
    {hinner : inner < indents.levels.size} (h : indents.levels[outer] < indents.levels[inner]) :
    outer < inner := by
  rw [← Nat.not_le]
  intro hle
  cases Nat.lt_or_eq_of_le hle with
  | inl hlt =>
    have hlevels := List.pairwise_iff_getElem.1 indents.isStack.2 inner outer hinner houter hlt
    exact UInt32.lt_asymm h hlevels
  | inr heq =>
    subst heq
    exact UInt32.lt_irrefl _ h

theorem contains.go_eq_true_iff {start stop : Nat} {h : stop ≤ indents.size} :
    go indents level start stop h = true ↔
      ∃ index, start ≤ index ∧ index < stop ∧
        ∃ hindex : index < indents.levels.size, indents.levels[index] = level := by
  -- Each step rules out the middle together with everything on one side of it
  fun_induction go indents level start stop h with
  | case1 start stop h hlt middle hmiddle hbelow ih =>
    rw [ih]
    constructor
    . rintro ⟨index, hstart, hstop, hlevel⟩
      exact ⟨index, by omega, hstop, hlevel⟩
    . rintro ⟨index, _, hstop, hindex, rfl⟩
      exact ⟨index, lt_of_levels_lt hbelow, hstop, hindex, rfl⟩
  | case2 start stop h hlt middle hmiddle hbelow habove ih =>
    rw [ih]
    constructor
    . rintro ⟨index, hstart, hstop, hlevel⟩
      exact ⟨index, hstart, by omega, hlevel⟩
    . rintro ⟨index, hstart, _, hindex, rfl⟩
      exact ⟨index, hstart, lt_of_levels_lt habove, hindex, rfl⟩
  | case3 start stop h hlt middle hmiddle hbelow habove =>
    have heq : indents.levels[middle] = level :=
      UInt32.le_antisymm (UInt32.not_lt.1 habove) (UInt32.not_lt.1 hbelow)
    simp only [true_iff]
    exact ⟨middle, by omega, by omega, hmiddle, heq⟩
  | case4 start stop h hlt =>
    simp only [Bool.false_eq_true, false_iff]
    rintro ⟨index, hstart, hstop, _⟩
    omega

theorem contains_eq_true_iff : indents.contains level = true ↔ level ∈ indents.toList := by
  rw [contains, contains.go_eq_true_iff, toList, Array.mem_toList_iff, Array.mem_iff_getElem]
  constructor
  . rintro ⟨index, _, _, hlevel⟩
    exact ⟨index, hlevel⟩
  . rintro ⟨index, hindex, hlevel⟩
    exact ⟨index, Nat.zero_le _, hindex, hindex, hlevel⟩

end

inductive Operation where
  | push (level : UInt32)
  | pop
  | reset
  | assign (levels : List UInt32)
  | restore (bytes : List UInt8) (capacity : Nat)

namespace Operation

def perform (indents : Indentation) : Operation → Indentation
  | push level => (indents.push? level).getD indents
  | pop =>
    match indents.pop? with
    | some (_, outer) => outer
    | none => indents
  | reset => base
  | assign levels =>
    match ofList? levels with
    | .ok other => other
    | .error _ => indents
  | restore bytes capacity =>
    match State.decode bytes capacity with
    | .ok state => state.indents
    | .error _ => indents

def performOnList (levels : List UInt32) : Operation → List UInt32
  | push level => if levels.getLastD 0 < level then levels ++ [level] else levels
  | pop => if 1 < levels.length then levels.dropLast else levels
  | reset => levels.take 1
  | assign other => if ascends other then other else levels
  | restore bytes capacity =>
    match State.decode bytes capacity with
    | .ok _ => 0 :: Varint.decodeAll (bytes.drop (1 + (bytes.headD 0).toNat))
    | .error _ => levels

theorem toList_perform (indents : Indentation) (operation : Operation) :
    (operation.perform indents).toList = operation.performOnList indents.toList := by
  cases operation with
  | push level =>
    have htop : indents.toList.getLastD 0 = indents.top := by
      rw [List.getLastD_eq_getLast?, getLast?_toList]
      rfl
    rw [perform, performOnList, htop, push?]
    split
    . rw [Option.getD_some, toList_push]
    . rfl
  | pop =>
    rw [perform, performOnList]
    cases hpop : indents.pop? with
    | none =>
      rw [pop?_eq_none_iff, depth] at hpop
      rw [if_neg]
      rw [length_toList]
      omega
    | some result =>
      rw [pop?_eq_some_iff] at hpop
      have houter := one_le_size result.2
      rw [hpop, List.dropLast_concat, if_pos]
      rw [List.length_append, length_toList, List.length_singleton]
      omega
  | reset =>
    rw [perform, performOnList, toList_eq_cons indents]
    rfl
  | assign levels =>
    have haccepted : ascends levels = true ↔ ∃ other, ofList? levels = .ok other := by
      rw [ascends_iff_isStack, exists_ofList?_eq_ok_iff]
    rw [perform, performOnList]
    cases h : ofList? levels with
    | ok other =>
      rw [if_pos (haccepted.2 ⟨other, h⟩)]
      exact ofList?_eq_ok_iff.1 h
    | error fault =>
      rw [if_neg]
      rw [haccepted, h]
      rintro ⟨other, heq⟩
      contradiction
  | restore bytes capacity =>
    rw [perform, performOnList]
    cases h : State.decode bytes capacity with
    | ok state => exact State.toList_indents_of_decode h
    | error fault => rfl

theorem toList_foldl_perform (operations : List Operation) (indents : Indentation) :
    (operations.foldl perform indents).toList = operations.foldl performOnList indents.toList := by
  induction operations generalizing indents with
  | nil => rfl
  | cons operation operations ih => rw [List.foldl_cons, List.foldl_cons, ih, toList_perform]

end Operation

theorem contains_of_operations (operations : List Operation) :
    let indents := operations.foldl Operation.perform base
    let levels := operations.foldl Operation.performOnList [0]
    indents.toList = levels ∧ IsStack levels ∧
      (∀ level, indents.contains level = true ↔ level ∈ levels) ∧ indents.contains 0 = true := by
  intro indents levels
  have hlevels : indents.toList = levels := Operation.toList_foldl_perform operations base
  rw [← hlevels]
  refine ⟨rfl, isStack_toList indents, ?_, ?_⟩
  . intro level
    apply contains_eq_true_iff
  . rw [contains_eq_true_iff, toList_eq_cons]
    apply List.mem_cons_self

end Indentation

end Offside
