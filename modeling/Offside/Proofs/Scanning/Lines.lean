import Offside.Proofs.Scanning.Answer
import Offside.Proofs.Scanning.Items

/-!
This module contains what the lines between two tokens come to, and the proof that a scan outside of
string literals answers what a count of the items ahead of it tells.
-/

namespace Offside

namespace Layout

open Blanks (Item items indent commentIndent? ofSplit)

def lineAnswer? (tabWidth top : UInt32) (valid : TokenSet) (passed : List Item) (rest : List Char) :
    Option Answer :=
  let width := if rest = [] then 0 else indent tabWidth passed
  if ¬ (rest = [] ∨ .blank '\n' ∈ passed) then
    none
  else if .indent ∈ valid ∧ top < width then
    some ⟨.indent, .openBlock width, 0, 0⟩
  else if .dedent ∈ valid ∧ width < top ∧ (commentIndent? tabWidth passed).all (· < top) then
    some ⟨.dedent, .closeBlock top, 0, 0⟩
  else if .newline ∈ valid then
    some ⟨.newline, .keep, 0, 0⟩
  else
    none

/--
What a scan outside of string literals answers, if it has passed some items and `rest` follows them.
A literal starts behind the items, unless one of them is a comment.
-/
inductive Answers (tabWidth top : UInt32) (valid : TokenSet) (passed : List Item) :
    (rest : List Char) → Option Answer → Prop
  | obstacle (rest : List Char) : Answers tabWidth top valid passed ('\\' :: rest) none
  | line {rest : List Char} {answer : Answer} (hobstacle : rest.head? ≠ some '\\')
    (h : lineAnswer? tabWidth top valid passed rest = some answer) :
    Answers tabWidth top valid passed rest (some answer)
  | literal {rest more : List Char} {opening : Literal.Opening}
    (hline : lineAnswer? tabWidth top valid passed rest = none)
    (hcomment : passed.any Item.isComment = false) (hvalid : .stringStart ∈ valid)
    (h : opening.IsAhead rest more) :
    Answers tabWidth top valid passed rest
      (some
        ⟨.stringStart, .openLiteral opening.delimiter, (items.text passed).length,
          (items.text passed).length + opening.text.length⟩)
  | declined {rest : List Char} (hobstacle : rest.head? ≠ some '\\')
    (hline : lineAnswer? tabWidth top valid passed rest = none)
    (h : passed.any Item.isComment = false → .stringStart ∈ valid →
      ∀ (opening : Literal.Opening) (more : List Char), rest ≠ opening.text ++ more) :
    Answers tabWidth top valid passed rest none

variable {tabWidth : UInt32} {state : State} {valid : TokenSet} {passed : List Item}
  {chars rest : List Char}

theorem crossedLine_ofSplit :
    (ofSplit tabWidth passed rest).crossedLine = true ↔ rest = [] ∨ .blank '\n' ∈ passed := by
  unfold ofSplit
  split <;> simp_all [Blanks.crossLine, Blanks.ofItems]

theorem width_ofSplit :
    (ofSplit tabWidth passed rest).width = if rest = [] then 0 else indent tabWidth passed := by
  unfold ofSplit
  split <;> rfl

theorem comment?_ofSplit :
    (ofSplit tabWidth passed rest).comment? = commentIndent? tabWidth passed := by
  unfold ofSplit
  split <;> rfl

theorem lineAnswer?_eq :
    lineAnswer? tabWidth state.indents.top valid passed rest
      =
    (if (ofSplit tabWidth passed rest).crossedLine then
      line? state.indents.top valid (ofSplit tabWidth passed rest)
    else
      none).map fun found => ⟨found.kind, state.change found, 0, 0⟩ := by
  unfold lineAnswer? line?
  simp only [crossedLine_ofSplit, width_ofSplit, comment?_ofSplit]
  generalize (if rest = [] then 0 else indent tabWidth passed) = width
  by_cases hline : rest = [] ∨ .blank '\n' ∈ passed
  . rw [if_neg (not_not_intro hline), if_pos hline]
    split
    . rfl
    . split
      . rfl
      . split <;> rfl
  . rw [if_pos hline, if_neg hline]
    rfl

theorem isNone_comment?_ofSplit :
    (ofSplit tabWidth passed rest).comment?.isNone = true ↔ passed.any Item.isComment = false := by
  rw [comment?_ofSplit, commentIndent?]
  cases passed.any Item.isComment <;> simp

theorem mark?_follow_skips (count : Nat) :
    (Reader.follow { rest := chars : Track } (.mark :: List.replicate count .skip)).mark?
      =
    some 0 := by
  rw [Track.follow_mark]
  apply Reader.follow_inv fun track : Track => track.mark? = some 0
  . intro next hmem track htrack
    rw [(List.mem_replicate.1 hmem).2]
    simp only [Reader.move, Track.skip]
    split <;> exact htrack
  . rfl

theorem yields_line {found : Found} {walk : Walk (Option Found)} {count : Nat}
    (hvalue : walk.value = some found) (hmoves : walk.moves = .mark :: List.replicate count .skip) :
    walk.Yields state chars (some ⟨found.kind, state.change found, 0, 0⟩) := by
  apply Walk.Yields.found hvalue
  . rw [hmoves, mark?_follow_skips]
  . apply Nat.min_zero

theorem yields_literal {opening : Literal.Opening} {more : List Char} {skipped looked : Nat}
    {walk : Walk (Option Found)} (hvalue : walk.value = some (.stringStart opening.delimiter))
    (hmoves : walk.moves = .mark :: List.replicate skipped .skip ++
      (opening.moves ++ List.replicate looked .consume))
    (hchars : chars.drop skipped = opening.text ++ more) :
    walk.Yields state chars
      (some
        ⟨.stringStart, .openLiteral opening.delimiter, skipped,
          skipped + opening.text.length⟩) := by
  obtain ⟨hstart, hstop⟩ := Literal.follow_skips_moves looked hchars
  apply @Walk.Yields.found state _ _ _ _ _ hvalue
  . rw [hmoves, hstop]
  . rw [hmoves, hstart]
    apply Nat.min_eq_left
    apply Nat.le_add_right

theorem exists_answer_literal (h : items.Splits chars passed rest)
    (hobstacle : rest.head? ≠ some '\\')
    (hline : lineAnswer? tabWidth state.indents.top valid passed rest = none)
    (hcomment : passed.any Item.isComment = false) (hvalid : .stringStart ∈ valid) :
    ∃ answer?, Answers tabWidth state.indents.top valid passed rest answer? ∧
      ((Literal.scanStart rest).after
        (.mark :: (Blanks.skip tabWidth false {} chars).moves)).Yields state chars answer? := by
  cases hvalue : (Literal.scanStart rest).value with
  | none =>
    refine ⟨none, .declined hobstacle hline ?_, .declined hvalue⟩
    intro _ _
    apply Literal.ne_text_append_of_scanStart hvalue
  | some found =>
    obtain ⟨opening, more, looked, hahead, rfl, hopening⟩ :=
      Literal.exists_opening_of_scanStart hvalue
    have hskip := @Blanks.value_skip_of_splits tabWidth _ _ _ h
    rw [if_neg hobstacle] at hskip
    have hne : rest ≠ [] := by
      rw [hahead.eq_append]
      intro hnil
      have hlength := congrArg List.length hnil
      rw [List.length_append, opening.length_text, List.length_nil] at hlength
      omega
    have hlength := Blanks.length_moves_skip h.eq_append hskip hne
    refine ⟨_, .literal hline hcomment hvalid hahead, ?_⟩
    rw [← hlength]
    apply yields_literal
    . exact hvalue
    . rw [Walk.moves_after, hopening, ← Blanks.moves_skip_eq]
    . rw [← Blanks.rest_skip hskip, hahead.eq_append]

theorem exists_answer_of_splits (h : items.Splits chars passed rest) :
    ∃ answer?, Answers tabWidth state.indents.top valid passed rest answer? ∧
      (scan tabWidth state.indents.top valid chars).Yields state chars answer? := by
  have hskip := @Blanks.value_skip_of_splits tabWidth _ _ _ h
  unfold scan
  by_cases hobstacle : rest.head? = some '\\'
  . rw [if_pos hobstacle] at hskip
    obtain ⟨more, rfl⟩ := List.head?_eq_some_iff.1 hobstacle
    refine ⟨none, .obstacle more, .declined ?_⟩
    dsimp only
    rw [hskip]
  . rw [if_neg hobstacle] at hskip
    dsimp only
    rw [hskip]
    dsimp only
    have hline := @lineAnswer?_eq tabWidth state valid passed rest
    generalize (if (ofSplit tabWidth passed rest).crossedLine then
      line? state.indents.top valid (ofSplit tabWidth passed rest) else none) = found? at hline ⊢
    cases found? with
    | some found =>
      refine ⟨_, .line hobstacle hline, ?_⟩
      apply yields_line rfl
      rw [← Blanks.moves_skip_eq]
    | none =>
      dsimp only
      split
      . next hstart =>
        apply exists_answer_literal h hobstacle hline _ hstart.2
        exact isNone_comment?_ofSplit.1 hstart.1
      . next hstart =>
        refine ⟨none, .declined hobstacle hline ?_, .declined rfl⟩
        intro hcomment hvalid
        exact absurd ⟨isNone_comment?_ofSplit.2 hcomment, hvalid⟩ hstart

end Layout

theorem State.literal?_eq_none {state : State} {valid : TokenSet}
    (h : .stringContent ∉ valid ∨ .indent ∈ valid ∨ state.delimiter? = none) :
    state.literal? valid = none := by
  unfold literal?
  split
  . next hvalid =>
    obtain hcontent | hindent | hopen := h
    . exact absurd hvalid.1 hcontent
    . exact absurd hindent hvalid.2
    . exact hopen
  . rfl

namespace Scanner

variable {scanner : Scanner} {valid : TokenSet}

theorem gives_outside_literal
    (hliteral : .stringContent ∉ valid ∨ .indent ∈ valid ∨ scanner.state.delimiter? = none)
    (source : List UInt8) (offset : Nat) :
    let reader := ByteReader.ofBytes source offset
    let items := Blanks.items
    ∃ passed rest answer?,
      items.Splits (Reader.ahead reader) passed rest ∧
      (∀ others more, items.Splits (Reader.ahead reader) others more →
        others = passed ∧ more = rest) ∧
      Layout.Answers scanner.options.tabWidth scanner.state.indents.top valid passed rest answer? ∧
      scanner.Gives reader valid answer? := by
  intro reader items
  obtain ⟨passed, rest, hsplits, hunique⟩ := items.exists_splits (Reader.ahead reader)
  obtain ⟨answer?, hanswers, hyields⟩ := @Layout.exists_answer_of_splits
    scanner.options.tabWidth scanner.state valid _ _ _ hsplits
  rw [← State.scan_of_literal?_eq_none (State.literal?_eq_none hliteral)] at hyields
  exact ⟨passed, rest, answer?, hsplits, hunique, hanswers, gives_of_yields hyields⟩

theorem gives_outside_literal_continued_line :
    let scanner : Scanner := {}
    let valid : TokenSet := .ofList [.newline, .indent, .dedent]
    let source : List UInt8 := Utf8.encode ['#', '\n', '\n', '\t', '\\', '\r', '\n', ' ', 'x']
    (.stringContent ∉ valid ∨ .indent ∈ valid ∨ scanner.state.delimiter? = none) ∧
      scanner.Gives (.ofBytes source 0) valid (some ⟨.indent, .openBlock 9, 0, 0⟩) := by
  intro scanner valid source
  have hliteral : .stringContent ∉ valid ∨ .indent ∈ valid ∨ scanner.state.delimiter? = none := by
    decide
  have hstops : Blanks.items.Stops false ['x'] := by
    intro item rest heq hahead
    cases hahead with
    | blank h =>
      obtain ⟨rfl, _⟩ := List.cons.inj heq
      exact absurd h (by decide)
    | comment => simp [Blanks.items, Blanks.Item.chars] at heq
    | lastComment => simp [Blanks.items, Blanks.Item.chars] at heq
    | carriageReturn => simp [Blanks.items, Blanks.Item.chars] at heq
    | continuation => simp [Blanks.items, Blanks.Item.chars] at heq
  have hsplits : Blanks.items.Splits (Reader.ahead (ByteReader.ofBytes source 0))
      [.comment [] true, .blank '\n', .blank '\t', .continuation ['\r', '\n'], .blank ' '] ['x'] := by
    constructor
    . decide
    . exact .next (.comment (by decide)) (.next (.blank (by decide)) (.next (.blank (by decide))
        (.next .carriageReturn (.next (.blank (by decide)) (.stop hstops)))))
  have hline : Layout.lineAnswer? 8 0 valid
      [.comment [] true, .blank '\n', .blank '\t', .continuation ['\r', '\n'], .blank ' '] ['x']
      = some ⟨.indent, .openBlock 9, 0, 0⟩ := by
    rfl
  obtain ⟨passed, rest, answer?, _, hunique, hanswers, hgives⟩ :=
    gives_outside_literal hliteral source 0
  obtain ⟨rfl, rfl⟩ := hunique _ _ hsplits
  cases hanswers with
  | line _ h =>
    obtain rfl := Option.some.inj (h.symm.trans hline)
    exact ⟨hliteral, hgives⟩
  | literal h => exact absurd (h.symm.trans hline) (by simp)
  | declined _ h => exact absurd (h.symm.trans hline) (by simp)

end Scanner

end Offside
