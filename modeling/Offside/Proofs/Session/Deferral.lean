import Offside.Proofs.Reading.Resuming
import Offside.Proofs.Scanning.Comments
import Offside.Proofs.Scanning.Determined

/-!
This module contains the proof that a comment can put off the end of a block, but that no end is lost:
a scan from behind the comment measures the same indentation and finds the end of the block there.
-/

namespace Offside

namespace Layout

def deferral? (valid : TokenSet) : Option Answer :=
  if .newline ∈ valid then some ⟨.newline, .keep, 0, 0⟩ else none

theorem change_deferral? (valid : TokenSet) : (deferral? valid).elim .keep Answer.change = .keep := by
  unfold deferral?
  split <;> rfl

open Blanks (Item commentIndent? ofSplit behindText)

variable {tabWidth top : UInt32} {valid : TokenSet} {passed before after : List Item}
  {text rest : List Char} {hasBreak : Bool}

theorem lineAnswer?_of_lt_top (hvalid : .dedent ∈ valid)
    (hcrossed : (ofSplit tabWidth passed rest).crossedLine = true)
    (hwidth : (ofSplit tabWidth passed rest).width < top) :
    lineAnswer? tabWidth top valid passed rest
      =
    if (commentIndent? tabWidth passed).all (· < top) then
      some ⟨.dedent, .closeBlock top, 0, 0⟩
    else
      deferral? valid := by
  rw [crossedLine_ofSplit] at hcrossed
  rw [width_ofSplit] at hwidth
  unfold lineAnswer?
  dsimp only
  generalize (if rest = [] then 0 else Blanks.indent tabWidth passed) = width at hwidth ⊢
  have hindent : ¬ (.indent ∈ valid ∧ top < width) := by
    grind
  rw [if_neg (not_not_intro hcrossed), if_neg hindent]
  by_cases hcomment : (commentIndent? tabWidth passed).all (· < top) = true
  . rw [if_pos ⟨hvalid, hwidth, hcomment⟩, if_pos hcomment]
  . rw [if_neg fun hall => hcomment hall.2.2, if_neg hcomment]
    rfl

theorem width_behindText :
    (ofSplit tabWidth (behindText hasBreak after) rest).width
      =
    (ofSplit tabWidth (before ++ .comment text hasBreak :: after) rest).width := by
  rw [width_ofSplit, width_ofSplit, Blanks.indent_behindText, Blanks.indent_append_cons rfl]

end Layout

namespace Scanner

open Blanks (Item commentIndent? ofSplit behindText)

variable {scanner : Scanner} {valid : TokenSet} {source : List UInt8} {offset : Nat}
  {passed : List Item} {rest : List Char}

section Deeper

variable (hliteral : scanner.state.literal? valid = none) (hvalid : .dedent ∈ valid)
  (hsplits : Blanks.items.Splits (Reader.ahead (ByteReader.ofBytes source offset)) passed rest)
  (hobstacle : rest.head? ≠ some '\\')
  (hcrossed : (ofSplit scanner.options.tabWidth passed rest).crossedLine = true)
  (hwidth : (ofSplit scanner.options.tabWidth passed rest).width < scanner.state.indents.top)
include hliteral hvalid hsplits hobstacle hcrossed hwidth

theorem gives_of_lt_top :
    scanner.Gives (ByteReader.ofBytes source offset) valid
      (if (commentIndent? scanner.options.tabWidth passed).all (· < scanner.state.indents.top) then
        some ⟨.dedent, .closeBlock scanner.state.indents.top, 0, 0⟩
      else
        Layout.deferral? valid) := by
  have hline := Layout.lineAnswer?_of_lt_top hvalid hcrossed hwidth
  obtain ⟨answer?, hanswers, hgives⟩ := exists_gives_of_items hliteral hsplits
  rw [← hline]
  cases hanswers with
  | obstacle => exact absurd rfl hobstacle
  | line _ hanswer =>
    rw [hanswer]
    exact hgives
  | literal hnone hcomment =>
    have hall : commentIndent? scanner.options.tabWidth passed = none := by
      rw [commentIndent?, hcomment, if_neg Bool.false_ne_true]
    rw [hline, hall, Option.all_none, if_pos rfl] at hnone
    contradiction
  | declined _ hnone =>
    rw [hnone]
    exact hgives

theorem gives_deferral? {width : UInt32}
    (hcomment : commentIndent? scanner.options.tabWidth passed = some width)
    (hle : scanner.state.indents.top ≤ width) :
    scanner.Gives (ByteReader.ofBytes source offset) valid (Layout.deferral? valid) ∧
      (scanner.scan (ByteReader.ofBytes source offset) valid).value.scanner = scanner := by
  have hgives := gives_of_lt_top hliteral hvalid hsplits hobstacle hcrossed hwidth
  rw [hcomment, Option.all_some, if_neg (by simpa using hle)] at hgives
  have hstate := hgives.change
  rw [Layout.change_deferral?] at hstate
  exact ⟨hgives, congrArg (Scanner.mk scanner.options) hstate⟩

end Deeper

theorem dedent_behind_comments {blanks : Blanks} {more : List Char} (hvalid : .dedent ∈ valid)
    (hopen : .stringContent ∉ valid ∨ .indent ∈ valid ∨ scanner.state.delimiter? = none)
    (hsplits : Blanks.items.Splits (Reader.ahead (ByteReader.ofBytes source offset)) passed rest)
    (hskip : (Blanks.skip scanner.options.tabWidth false {}
      (Reader.ahead (ByteReader.ofBytes source offset))).value = some (blanks, more))
    (hcrossed : blanks.crossedLine = true) (hwidth : blanks.width < scanner.state.indents.top) :
    let reader := ByteReader.ofBytes source offset
    let top := scanner.state.indents.top
    let comments := Blanks.comments scanner.options.tabWidth [] passed
    (∀ comment ∈ comments.head?, top ≤ comment.width →
      scanner.Gives reader valid (Layout.deferral? valid) ∧
      (scanner.scan reader valid).value.scanner = scanner) ∧
    ∀ earlier comment later, comments = earlier ++ comment :: later →
      let resumed := ByteReader.ofBytes source (reader.offsetBehind comment.stop)
      (∀ char ∈ (Reader.ahead resumed).head?, char = '\n') ∧
      (∃ again, (Blanks.skip scanner.options.tabWidth false {} (Reader.ahead resumed)).value
          = some (again, more) ∧
        again.crossedLine = true ∧ again.width = blanks.width) ∧
      scanner.Gives resumed valid
        (if later.head?.all (·.width < top) then
          some ⟨.dedent, .closeBlock top, 0, 0⟩
        else
          Layout.deferral? valid) := by
  intro reader top comments
  have hliteral := State.literal?_eq_none hopen
  rw [Blanks.value_skip_of_splits hsplits] at hskip
  have hobstacle : rest.head? ≠ some '\\' := by
    intro hobstacle
    rw [if_pos hobstacle] at hskip
    contradiction
  rw [if_neg hobstacle] at hskip
  obtain ⟨rfl, rfl⟩ := Prod.mk.inj (Option.some.inj hskip)
  constructor
  . intro comment hcomment hle
    have hindent : commentIndent? scanner.options.tabWidth passed = some comment.width := by
      rw [← Blanks.head?_comments_nil, hcomment, Option.map_some]
    exact gives_deferral? hliteral hvalid hsplits hobstacle hcrossed hwidth hindent hle
  . intro earlier comment later hcomments resumed
    obtain ⟨before, text, hasBreak, after, rfl, hstop, rfl⟩ := Blanks.isAmong_of_comments_eq hcomments
    have hahead : Reader.ahead resumed = (Reader.ahead reader).drop comment.stop :=
      ByteReader.ahead_ofBytes_position_add source offset comment.stop
    rw [List.nil_append] at hstop
    have hresumed := Blanks.splits_behindText hsplits
    rw [← hstop, ← hahead] at hresumed
    have hagain : (ofSplit scanner.options.tabWidth (behindText hasBreak after) rest).crossedLine
        = true :=
      Layout.crossedLine_ofSplit.2 (Blanks.crossedLine_behindText hsplits)
    have hsame := @Layout.width_behindText scanner.options.tabWidth before after text rest hasBreak
    refine ⟨?_, ⟨_, ?_, hagain, hsame⟩, ?_⟩
    . rw [hahead, hstop, Blanks.drop_eq_of_splits hsplits]
      cases hasBreak <;> simp
    . rw [Blanks.value_skip_of_splits hresumed, if_neg hobstacle]
    . rw [← hsame] at hwidth
      have hgives := gives_of_lt_top hliteral hvalid hresumed hobstacle hagain hwidth
      rw [@Blanks.commentIndent?_behindText _ ([] ++ before) text, Option.all_map] at hgives
      exact hgives

theorem dedent_behind_comments_of_block :
    let scanner : Scanner := { state := { indents := ⟨#[0, 4], by decide⟩ } }
    let valid : TokenSet := .ofList [.newline, .dedent]
    let source : List UInt8 := Utf8.encode "\n    # a\n# b\nx".toList
    scanner.Gives (ByteReader.ofBytes source 0) valid (some ⟨.newline, .keep, 0, 0⟩) ∧
      scanner.Gives (ByteReader.ofBytes source 8) valid (some ⟨.dedent, .closeBlock 4, 0, 0⟩) := by
  intro scanner valid source
  have hsplits : Blanks.items.Splits (Reader.ahead (ByteReader.ofBytes source 0))
      [.blank '\n', .blank ' ', .blank ' ', .blank ' ', .blank ' ', .comment [' ', 'a'] true,
        .comment [' ', 'b'] true] ['x'] := by
    constructor
    . decide +kernel
    . exact .next (.blank (by decide)) (.next (.blank (by decide)) (.next (.blank (by decide))
        (.next (.blank (by decide)) (.next (.blank (by decide)) (.next (.comment (by decide))
          (.next (.comment (by decide)) (.stop (Blanks.stops_cons (by decide) false []))))))))
  have hskip : (Blanks.skip scanner.options.tabWidth false {}
      (Reader.ahead (ByteReader.ofBytes source 0))).value = some (⟨true, 0, some 4⟩, ['x']) := by
    decide +kernel
  have hcomments : Blanks.comments scanner.options.tabWidth []
      [.blank '\n', .blank ' ', .blank ' ', .blank ' ', .blank ' ', .comment [' ', 'a'] true,
        .comment [' ', 'b'] true] = [⟨4, 8⟩, ⟨0, 12⟩] := by
    decide +kernel
  have hposition : (ByteReader.ofBytes source 0).offsetBehind 8 = 8 := by
    decide +kernel
  have hdeferred := @dedent_behind_comments scanner valid source 0 _ ['x'] ⟨true, 0, some 4⟩ ['x']
    (by decide) (by decide) hsplits hskip rfl (by decide)
  dsimp only at hdeferred
  rw [hcomments] at hdeferred
  obtain ⟨hfirst, hbehind⟩ := hdeferred
  obtain ⟨_, _, hgives⟩ := hbehind [] ⟨4, 8⟩ [⟨0, 12⟩] rfl
  rw [hposition] at hgives
  exact ⟨(hfirst ⟨4, 8⟩ rfl (by decide)).1, hgives⟩

end Scanner

end Offside
