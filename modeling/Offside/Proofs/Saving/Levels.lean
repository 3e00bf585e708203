import Offside.Proofs.Saving.RoundTrip

/-!
This module contains the bytes that a level can be read from and those that no level can be read
from, and the proof that the levels of a saved state are read off exactly such bytes, one after the
other.
-/

namespace Offside

namespace Varint

def value : List UInt8 → Nat
  | [] => 0
  | byte :: bytes => byte.toNat % 0x80 + 0x80 * value bytes

/--
The bytes of one level. All but the last one announce another one, there are no more than five of
them, and the fifth one holds four bits.
-/
structure Code where
  more : List UInt8
  last : UInt8
  continued : ∀ byte ∈ more, 0x80 ≤ byte.toNat
  stops : last.toNat < 0x80
  bounded : more.length < 4 ∨ more.length = 4 ∧ last.toNat < 0x10

def Code.bytes (code : Code) : List UInt8 :=
  code.more ++ [code.last]

def Code.level (code : Code) : UInt32 :=
  .ofNat (value code.bytes)

def IsUnreadable (bytes : List UInt8) : Prop :=
  (∀ byte ∈ bytes, 0x80 ≤ byte.toNat) ∨
    (∀ byte ∈ bytes.take 4, 0x80 ≤ byte.toNat) ∧ ∃ fifth ∈ bytes[4]?, 0x10 ≤ fifth.toNat

theorem decode?.go_append {budget : Nat} {more : List UInt8} {last : UInt8} (rest : List UInt8)
    (hmore : ∀ byte ∈ more, 0x80 ≤ byte.toNat) (hlast : last.toNat < 0x80)
    (hbudget : more.length < budget ∨ more.length = budget ∧ last.toNat < 0x10) :
    go budget (more ++ last :: rest) = some (value (more ++ [last]), rest) := by
  induction more generalizing budget with
  | nil =>
    have hvalue : value [last] = last.toNat := by
      simp only [value]
      omega
    cases budget with
    | zero =>
      rw [List.nil_append, List.nil_append, go, if_pos (by simpa using hbudget), hvalue]
    | succ budget =>
      rw [List.nil_append, List.nil_append, go, if_pos hlast, hvalue]
  | cons byte more ih =>
    rw [List.forall_mem_cons] at hmore
    cases budget with
    | zero => simp at hbudget
    | succ budget =>
      rw [List.cons_append, List.cons_append, go, if_neg (by omega), ih hmore.2 (by simpa using hbudget),
        value]
      rfl

theorem decode?.exists_of_go_eq {budget value : Nat} {bytes rest : List UInt8}
    (h : go budget bytes = some (value, rest)) :
    ∃ more last, bytes = more ++ last :: rest ∧ value = Varint.value (more ++ [last]) ∧
      (∀ byte ∈ more, 0x80 ≤ byte.toNat) ∧ last.toNat < 0x80 ∧
      (more.length < budget ∨ more.length = budget ∧ last.toNat < 0x10) := by
  induction bytes generalizing budget value with
  | nil => cases budget <;> simp [go] at h
  | cons byte bytes ih =>
    have hvalue : Varint.value [byte] = byte.toNat % 0x80 := by
      simp [Varint.value]
    cases budget with
    | zero =>
      rw [go] at h
      split at h
      . next hlast =>
        obtain ⟨rfl, rfl⟩ := Prod.mk.inj (Option.some.inj h)
        refine ⟨[], byte, rfl, ?_, by simp, by omega, .inr ⟨rfl, hlast⟩⟩
        rw [List.nil_append, hvalue]
        omega
      . contradiction
    | succ budget =>
      rw [go] at h
      split at h
      . next hlast =>
        obtain ⟨rfl, rfl⟩ := Prod.mk.inj (Option.some.inj h)
        refine ⟨[], byte, rfl, ?_, by simp, hlast, .inl (by simp)⟩
        rw [List.nil_append, hvalue]
        omega
      . next hmore =>
        obtain ⟨⟨tail, _⟩, hgo, heq⟩ := Option.map_eq_some_iff.1 h
        obtain ⟨rfl, rfl⟩ := Prod.mk.inj heq
        obtain ⟨more, last, rfl, rfl, hcontinued, hlast, hbudget⟩ := ih hgo
        refine ⟨byte :: more, last, rfl, rfl, ?_, hlast, by simpa using hbudget⟩
        rw [List.forall_mem_cons]
        exact ⟨by omega, hcontinued⟩

theorem decode?.go_eq_none_iff {budget : Nat} {bytes : List UInt8} :
    go budget bytes = none ↔
      (∀ byte ∈ bytes, 0x80 ≤ byte.toNat) ∨
        (∀ byte ∈ bytes.take budget, 0x80 ≤ byte.toNat) ∧
          ∃ last ∈ bytes[budget]?, 0x10 ≤ last.toNat := by
  induction bytes generalizing budget with
  | nil => cases budget <;> simp [go]
  | cons byte bytes ih =>
    cases budget with
    | zero =>
      simp [go]
      omega
    | succ budget =>
      rw [go]
      split
      . next hlast => simp [Nat.not_le_of_lt hlast]
      . next hmore => simp [ih, Nat.le_of_not_lt hmore]

theorem decode?_eq_none_iff {bytes : List UInt8} : decode? bytes = none ↔ IsUnreadable bytes := by
  rw [decode?, Option.map_eq_none_iff, decode?.go_eq_none_iff]
  rfl

@[simp]
theorem decode?_bytes_append (code : Code) (rest : List UInt8) :
    decode? (code.bytes ++ rest) = some (code.level, rest) := by
  rw [decode?, Code.bytes, List.append_assoc, List.singleton_append,
    decode?.go_append rest code.continued code.stops code.bounded]
  rfl

theorem exists_code_of_decode? {bytes rest : List UInt8} {level : UInt32}
    (h : decode? bytes = some (level, rest)) :
    ∃ code : Code, bytes = code.bytes ++ rest ∧ code.level = level := by
  obtain ⟨⟨value, _⟩, hgo, heq⟩ := Option.map_eq_some_iff.1 h
  obtain ⟨rfl, rfl⟩ := Prod.mk.inj heq
  obtain ⟨more, last, rfl, rfl, hmore, hlast, hbudget⟩ := decode?.exists_of_go_eq hgo
  refine ⟨⟨more, last, hmore, hlast, hbudget⟩, ?_, rfl⟩
  simp [Code.bytes]

end Varint

theorem Indentation.top_eq_getLastD {indents : Indentation} {levels : List UInt32}
    (h : indents.toList = 0 :: levels) : indents.top = levels.getLastD 0 := by
  have htop := indents.getLast?_toList
  rw [h, List.getLast?_cons, Option.some.injEq] at htop
  rw [List.getLastD_eq_getLast?, htop]

namespace State

open Varint

theorem readBlocks_of_unreadable {bytes : List UInt8} (indents : Indentation) (hne : bytes ≠ [])
    (h : IsUnreadable bytes) :
    readBlocks indents bytes = .error (.malformedLevel (indents.depth + 1)) := by
  cases bytes with
  | nil => contradiction
  | cons byte bytes =>
    rw [readBlocks]
    split
    . rfl
    . next hsome =>
      rw [decode?_eq_none_iff.2 h] at hsome
      contradiction

theorem readBlocks_code_append (indents : Indentation) (code : Code) (rest : List UInt8) :
    readBlocks indents (code.bytes ++ rest) =
      match indents.push? code.level with
      | some inner => readBlocks inner rest
      | none => .error (.nonIncreasing (indents.depth + 1) code.level) := by
  have hdecode := decode?_bytes_append code rest
  cases hbytes : code.bytes ++ rest with
  | nil => simp [Code.bytes] at hbytes
  | cons byte bytes =>
    rw [hbytes] at hdecode
    rw [readBlocks]
    split
    . next hnone =>
      rw [hdecode] at hnone
      contradiction
    . next hsome =>
      rw [hdecode] at hsome
      cases hsome
      rfl

theorem readBlocks_codes_append {indents inner : Indentation} {codes : List Code}
    (rest : List UInt8) (h : inner.toList = indents.toList ++ codes.map Code.level) :
    readBlocks indents (codes.flatMap Code.bytes ++ rest) = readBlocks inner rest := by
  induction codes generalizing indents with
  | nil =>
    rw [List.map_nil, List.append_nil, Indentation.toList_inj] at h
    rw [List.flatMap_nil, List.nil_append, h]
  | cons code codes ih =>
    rw [List.map_cons] at h
    have htop := Indentation.top_lt_of_toList_eq_append_cons h
    have hpush : indents.push? code.level = some (indents.push code.level htop) := by
      rw [Indentation.push?, dif_pos htop]
    rw [List.flatMap_cons, List.append_assoc, readBlocks_code_append, hpush]
    apply ih
    rw [h, Indentation.toList_push, List.append_assoc, List.singleton_append]

inductive IsStop (top : UInt32) : List UInt8 → Prop
  | done : IsStop top []
  | unreadable {rest : List UInt8} (hne : rest ≠ []) (h : IsUnreadable rest) : IsStop top rest
  | shallow (code : Code) (rest : List UInt8) (h : code.level ≤ top) :
    IsStop top (code.bytes ++ rest)

theorem exists_codes (indents : Indentation) (bytes : List UInt8) :
    ∃ (codes : List Code) (inner : Indentation) (rest : List UInt8),
      bytes = codes.flatMap Code.bytes ++ rest ∧
      inner.toList = indents.toList ++ codes.map Code.level ∧
      IsStop inner.top rest := by
  fun_induction readBlocks indents bytes with
  | case1 indents => exact ⟨[], indents, [], rfl, by simp, .done⟩
  | case2 indents byte bytes hdecode =>
    rw [decode?_eq_none_iff] at hdecode
    exact ⟨[], indents, _, rfl, by simp, .unreadable (by simp) hdecode⟩
  | case3 indents byte bytes level rest hdecode inner hpush ih =>
    obtain ⟨code, hbytes, rfl⟩ := exists_code_of_decode? hdecode
    obtain ⟨codes, last, rest, rfl, hlast, hstop⟩ := ih
    refine ⟨code :: codes, last, rest, ?_, ?_, hstop⟩
    . rw [hbytes, List.flatMap_cons, List.append_assoc]
    . rw [hlast, (Indentation.push?_eq_some_iff.1 hpush).2, List.map_cons, List.append_assoc,
        List.singleton_append]
  -- The level can be read, but the block is not pushed
  | case4 indents byte bytes level rest hdecode hpush =>
    obtain ⟨code, hbytes, rfl⟩ := exists_code_of_decode? hdecode
    rw [Indentation.push?_eq_none_iff] at hpush
    refine ⟨[], indents, _, rfl, by simp, ?_⟩
    rw [hbytes]
    apply IsStop.shallow code rest hpush

end State

end Offside
