import Offside.Fault

/-!
This module contains the margins of the blocks that are open at some point of a source. The margins
start at column 0 and strictly increase from the outermost block to the innermost one, and every
operation here keeps them so.
-/

namespace Offside

def Indentation.IsStack (levels : List UInt32) : Prop :=
  levels.head? = some 0 ∧ levels.Pairwise (· < ·)

instance (levels : List UInt32) : Decidable (Indentation.IsStack levels) :=
  inferInstanceAs (Decidable (_ ∧ _))

@[ext]
structure Indentation where
  levels : Array UInt32
  isStack : Indentation.IsStack levels.toList
  deriving DecidableEq

namespace Indentation

def base : Indentation where
  levels := #[0]
  isStack := by decide

def toList (indents : Indentation) : List UInt32 :=
  indents.levels.toList

theorem isStack_toList (indents : Indentation) : IsStack indents.toList :=
  indents.isStack

theorem toList_inj {lhs rhs : Indentation} : lhs.toList = rhs.toList ↔ lhs = rhs := by
  simp [toList, Indentation.ext_iff]

def size (indents : Indentation) : Nat :=
  indents.levels.size

def blocks (indents : Indentation) : List UInt32 :=
  indents.toList.tail

def depth (indents : Indentation) : Nat :=
  indents.size - 1

def top (indents : Indentation) : UInt32 :=
  indents.levels.back?.getD 0

theorem toList_eq_cons (indents : Indentation) : indents.toList = 0 :: indents.blocks := by
  obtain ⟨rest, h⟩ := List.head?_eq_some_iff.1 indents.isStack.1
  simp [blocks, toList, h]

theorem length_toList (indents : Indentation) : indents.toList.length = indents.size := by
  simp [toList, size]

theorem one_le_size (indents : Indentation) : 1 ≤ indents.size := by
  simp [← length_toList, toList_eq_cons]

@[simp]
theorem length_blocks (indents : Indentation) : indents.blocks.length = indents.depth := by
  simp [blocks, depth, length_toList]

theorem getLast?_toList (indents : Indentation) : indents.toList.getLast? = some indents.top := by
  have := one_le_size indents
  grind [toList, top, size]

theorem le_top {indents : Indentation} {level : UInt32} (h : level ∈ indents.toList) :
    level ≤ indents.top := by
  obtain ⟨outer, hlist⟩ := List.getLast?_eq_some_iff.1 (getLast?_toList indents)
  have hlt := (isStack_toList indents).2
  rw [hlist, List.pairwise_append] at hlt
  rw [hlist, List.mem_append, List.mem_singleton] at h
  cases h with
  | inl h => exact UInt32.le_of_lt (hlt.2.2 level h indents.top (by simp))
  | inr h => exact h ▸ UInt32.le_refl _

def push (indents : Indentation) (level : UInt32) (h : indents.top < level) : Indentation where
  levels := indents.levels.push level
  isStack := by
    rw [Array.toList_push]
    constructor
    . rw [List.head?_append, indents.isStack.1, Option.some_or]
    . rw [List.pairwise_append]
      refine ⟨indents.isStack.2, by simp, ?_⟩
      intro outer hmem inner hinner
      rw [List.mem_singleton.1 hinner]
      apply UInt32.lt_of_le_of_lt (le_top hmem) h

@[simp]
theorem toList_push {indents : Indentation} {level : UInt32} (h : indents.top < level) :
    (indents.push level h).toList = indents.toList ++ [level] := by
  simp [push, toList]

def push? (indents : Indentation) (level : UInt32) : Option Indentation :=
  if h : indents.top < level then some (indents.push level h) else none

theorem push?_eq_some_iff {indents inner : Indentation} {level : UInt32} :
    indents.push? level = some inner ↔
      indents.top < level ∧ inner.toList = indents.toList ++ [level] := by
  unfold push?
  split
  . next h => simp [h, ← toList_inj, eq_comm]
  . next h => simp [h]

theorem push?_eq_none_iff {indents : Indentation} {level : UInt32} :
    indents.push? level = none ↔ level ≤ indents.top := by
  simp [push?]

def pop (indents : Indentation) (h : 1 < indents.size) : Indentation where
  levels := indents.levels.pop
  isStack := by
    rw [Array.toList_pop]
    constructor
    . have hlist := toList_eq_cons indents
      have hlength := length_toList indents
      cases hblocks : indents.blocks <;> simp_all [toList]
    . apply List.Pairwise.sublist
      . apply List.dropLast_sublist
      . apply indents.isStack.2

@[simp]
theorem toList_pop {indents : Indentation} (h : 1 < indents.size) :
    (indents.pop h).toList = indents.toList.dropLast := by
  simp [pop, toList]

def pop? (indents : Indentation) : Option (UInt32 × Indentation) :=
  if h : 1 < indents.size then some (indents.top, indents.pop h) else none

theorem pop?_eq_some_iff {indents outer : Indentation} {level : UInt32} :
    indents.pop? = some (level, outer) ↔ indents.toList = outer.toList ++ [level] := by
  obtain ⟨init, hlist⟩ := List.getLast?_eq_some_iff.1 (getLast?_toList indents)
  have hsize := length_toList indents
  have houter := one_le_size outer
  unfold pop?
  split
  . next h =>
    simp only [Option.some.injEq, Prod.mk.injEq, ← toList_inj, toList_pop, hlist,
      List.dropLast_concat]
    constructor
    . rintro ⟨rfl, rfl⟩
      rfl
    . intro hconcat
      obtain ⟨rfl, hlevel⟩ := List.append_inj' hconcat rfl
      simpa using hlevel
  . next h =>
    simp only [reduceCtorEq, false_iff]
    intro hconcat
    rw [hconcat, List.length_append, length_toList, List.length_singleton] at hsize
    omega

theorem pop?_eq_none_iff {indents : Indentation} : indents.pop? = none ↔ indents.depth = 0 := by
  simp [pop?, depth]
  omega

def pushAll (indents : Indentation) : List UInt32 → Except Fault Indentation
  | [] => .ok indents
  | level :: levels =>
    match indents.push? level with
    | some indents => indents.pushAll levels
    | none => .error (.nonIncreasing (indents.depth + 1) level)

def ofList? : List UInt32 → Except Fault Indentation
  | 0 :: blocks => pushAll base blocks
  | _ => .error .missingBase

def contains (indents : Indentation) (level : UInt32) : Bool :=
  go 0 indents.size (Nat.le_refl _)
where
  go (start stop : Nat) (h : stop ≤ indents.size) : Bool :=
    if hlt : start < stop then
      let middle := (start + stop) / 2
      have hmiddle : middle < indents.levels.size := by
        simp only [size] at h
        omega
      if indents.levels[middle] < level then go (middle + 1) stop h
      else if level < indents.levels[middle] then go start middle (Nat.le_of_lt hmiddle)
      else true
    else false
  termination_by stop - start
  decreasing_by all_goals omega

end Indentation

end Offside
