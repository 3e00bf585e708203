/-!
This module contains the ways to cut segments off the front of a text, and the proof that a text
splits in exactly one way into as many segments as there are and what is left behind them.
-/

namespace Offside

/--
A way to cut segments off the front of a text. Whether a segment starts somewhere depends on what
follows it and on whether it is the first one, but no two segments ever start at the same place.
-/
structure Segmentation (σ : Type) where
  chars : σ → List Char
  Starts : (isFirst : Bool) → σ → (rest : List Char) → Prop
  chars_ne_nil : ∀ {isFirst segment rest}, Starts isFirst segment rest → chars segment ≠ []
  starts_inj : ∀ {isFirst lhs rhs more rest}, Starts isFirst lhs more → Starts isFirst rhs rest →
    chars lhs ++ more = chars rhs ++ rest → lhs = rhs

namespace Segmentation

variable {σ : Type} (segmentation : Segmentation σ)

def text (segments : List σ) : List Char :=
  segments.flatMap segmentation.chars

@[simp]
theorem text_nil : segmentation.text [] = [] := rfl

@[simp]
theorem text_cons (segment : σ) (segments : List σ) :
    segmentation.text (segment :: segments)
      =
    segmentation.chars segment ++ segmentation.text segments := rfl

@[simp]
theorem text_append (lhs rhs : List σ) :
    segmentation.text (lhs ++ rhs) = segmentation.text lhs ++ segmentation.text rhs := by
  apply List.flatMap_append

def Stops (isFirst : Bool) (chars : List Char) : Prop :=
  ∀ segment rest, chars = segmentation.chars segment ++ rest →
    ¬ segmentation.Starts isFirst segment rest

inductive Run : (isFirst : Bool) → List σ → (rest : List Char) → Prop
  | stop {isFirst : Bool} {rest : List Char} (h : segmentation.Stops isFirst rest) :
    Run isFirst [] rest
  | next {isFirst : Bool} {segment : σ} {segments : List σ} {rest : List Char}
    (h : segmentation.Starts isFirst segment (segmentation.text segments ++ rest))
    (hrest : Run false segments rest) :
    Run isFirst (segment :: segments) rest

structure Splits (chars : List Char) (segments : List σ) (rest : List Char) : Prop where
  eq_append : chars = segmentation.text segments ++ rest
  run : segmentation.Run true segments rest

variable {segmentation}

theorem Run.stops {isFirst : Bool} {segments : List σ} {rest : List Char}
    (h : segmentation.Run isFirst segments rest) :
    segmentation.Stops (isFirst && segments.isEmpty) rest := by
  induction h with
  | stop h => simpa using h
  | next h hrest ih => simpa using ih

theorem Run.text_eq_nil_iff {isFirst : Bool} {segments : List σ} {rest : List Char}
    (h : segmentation.Run isFirst segments rest) :
    segmentation.text segments = [] ↔ segments = [] := by
  cases h with
  | stop => simp
  | next hstarts => simp [segmentation.chars_ne_nil hstarts]

theorem Run.of_append_cons {isFirst : Bool} {before after : List σ} {segment : σ} {rest : List Char}
    (h : segmentation.Run isFirst (before ++ segment :: after) rest) :
    segmentation.Starts (isFirst && before.isEmpty) segment (segmentation.text after ++ rest) ∧
      segmentation.Run false after rest := by
  induction before generalizing isFirst with
  | nil =>
    cases h with
    | next hstarts hrest =>
      rw [List.isEmpty_nil, Bool.and_true]
      exact ⟨hstarts, hrest⟩
  | cons first before ih =>
    cases h with
    | next _ hrest =>
      rw [List.isEmpty_cons, Bool.and_false]
      exact ih hrest

theorem Run.unique {isFirst : Bool} {lhs rhs : List σ} {more rest : List Char}
    (hlhs : segmentation.Run isFirst lhs more) (hrhs : segmentation.Run isFirst rhs rest)
    (heq : segmentation.text lhs ++ more = segmentation.text rhs ++ rest) :
    lhs = rhs ∧ more = rest := by
  induction hlhs generalizing rhs with
  | stop hstops =>
    cases hrhs with
    | stop => exact ⟨rfl, heq⟩
    | next hstarts =>
      rw [text_nil, List.nil_append, text_cons, List.append_assoc] at heq
      exact absurd hstarts (hstops _ _ heq)
  | next hstarts _ ih =>
    cases hrhs with
    | stop hstops =>
      rw [text_nil, List.nil_append, text_cons, List.append_assoc] at heq
      exact absurd hstarts (hstops _ _ heq.symm)
    | next hother hrest =>
      rw [text_cons, text_cons, List.append_assoc, List.append_assoc] at heq
      obtain rfl := segmentation.starts_inj hstarts hother heq
      obtain ⟨rfl, rfl⟩ := ih hrest (List.append_cancel_left heq)
      exact ⟨rfl, rfl⟩

variable (segmentation)

theorem exists_run (isFirst : Bool) (chars : List Char) :
    ∃ segments rest, chars = segmentation.text segments ++ rest ∧
      segmentation.Run isFirst segments rest := by
  induction hlength : chars.length using Nat.strongRecOn generalizing isFirst chars with
  | ind length ih =>
    by_cases hstops : segmentation.Stops isFirst chars
    . exact ⟨[], chars, rfl, .stop hstops⟩
    . simp only [Stops, Classical.not_forall, Classical.not_not] at hstops
      obtain ⟨segment, rest, rfl, hstarts⟩ := hstops
      have hshorter : rest.length < length := by
        have := List.length_pos_iff.2 (segmentation.chars_ne_nil hstarts)
        rw [List.length_append] at hlength
        omega
      obtain ⟨segments, last, rfl, hrun⟩ := ih rest.length hshorter false rest rfl
      refine ⟨segment :: segments, last, ?_, .next hstarts hrun⟩
      rw [text_cons, List.append_assoc]

theorem exists_splits (chars : List Char) :
    ∃ segments rest, segmentation.Splits chars segments rest ∧
      ∀ others more, segmentation.Splits chars others more → others = segments ∧ more = rest := by
  obtain ⟨segments, rest, heq, hrun⟩ := segmentation.exists_run true chars
  refine ⟨segments, rest, ⟨heq, hrun⟩, ?_⟩
  intro others more hother
  apply hother.run.unique hrun
  rw [← hother.eq_append, heq]

end Segmentation

end Offside
