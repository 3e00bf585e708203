import Offside.Proofs.Scanning.Items

/-!
This module contains the comments among the items between two tokens, and the proof that the items
behind a comment tell the same of the lines as all of them.
-/

namespace Offside

namespace Blanks

structure Comment where
  width : UInt32
  stop : Nat
  deriving DecidableEq

def comments (tabWidth : UInt32) (before : List Item) : List Item → List Comment
  | [] => []
  | item :: passed =>
    let later := comments tabWidth (before ++ [item]) passed
    match item with
    | .comment text _ =>
      ⟨indent tabWidth before, (items.text before).length + 1 + text.length⟩ :: later
    | _ => later

variable {tabWidth : UInt32} {before passed : List Item} {item : Item}

theorem comments_cons (h : item.isComment = false) :
    comments tabWidth before (item :: passed) = comments tabWidth (before ++ [item]) passed := by
  cases item with
  | comment => contradiction
  | _ => rfl

theorem lastLine_append_cons (h : item.restarts = true) :
    lastLine (before ++ item :: passed) = lastLine passed := by
  rw [lastLine, lastLine, List.reverse_append, List.reverse_cons, List.append_assoc,
    List.singleton_append, List.takeWhile_append, List.takeWhile_cons_of_neg (by simp [h])]
  split
  . next hlength => rw [List.append_nil, (List.takeWhile_prefix _).eq_of_length hlength]
  . rfl

theorem indent_append_cons (h : item.restarts = true) :
    indent tabWidth (before ++ item :: passed) = indent tabWidth passed := by
  rw [indent, indent, columns, columns, lastLine_append_cons h]

def Comment.IsAmong (tabWidth : UInt32) (before passed : List Item) (comment : Comment)
    (later : List Comment) : Prop :=
  ∃ between text hasBreak after, passed = between ++ .comment text hasBreak :: after ∧
    comment.stop = (items.text (before ++ between)).length + 1 + text.length ∧
    later = comments tabWidth (before ++ between ++ [.comment text hasBreak]) after

section Among

variable {earlier later : List Comment} {comment : Comment}

theorem Comment.IsAmong.cons (h : comment.IsAmong tabWidth (before ++ [item]) passed later) :
    comment.IsAmong tabWidth before (item :: passed) later := by
  obtain ⟨between, text, hasBreak, after, rfl, hstop, hlater⟩ := h
  have happend : before ++ [item] ++ between = before ++ item :: between := by
    rw [List.append_assoc, List.singleton_append]
  rw [happend] at hstop hlater
  exact ⟨item :: between, text, hasBreak, after, rfl, hstop, hlater⟩

theorem isAmong_of_comments_eq
    (h : comments tabWidth before passed = earlier ++ comment :: later) :
    comment.IsAmong tabWidth before passed later := by
  induction passed generalizing before earlier with
  | nil => simp [comments] at h
  | cons item passed ih =>
    cases hcomment : item.isComment with
    | false =>
      rw [comments_cons hcomment] at h
      exact (ih h).cons
    | true =>
      cases item with
      | comment text hasBreak =>
        rw [comments] at h
        cases earlier with
        | nil =>
          obtain ⟨rfl, rfl⟩ := List.cons.inj h
          refine ⟨[], text, hasBreak, passed, rfl, ?_, ?_⟩
          . rw [List.append_nil]
          . rw [List.append_nil]
        | cons first earlier => exact (ih (List.cons.inj h).2).cons
      | _ => contradiction

end Among

theorem head?_comments :
    (comments tabWidth before passed).head?.map Comment.width
      =
    if passed.any Item.isComment then
      some (indent tabWidth (before ++ passed.takeWhile (!·.isComment)))
    else
      none := by
  induction passed generalizing before with
  | nil => rfl
  | cons item passed ih =>
    cases hcomment : item.isComment with
    | false =>
      rw [comments_cons hcomment, ih, List.any_cons, hcomment, Bool.false_or,
        List.takeWhile_cons_of_pos (by simp [hcomment]), List.append_assoc, List.singleton_append]
    | true =>
      rw [List.any_cons, hcomment, Bool.true_or, if_pos rfl,
        List.takeWhile_cons_of_neg (by simp [hcomment]), List.append_nil]
      cases item with
      | comment => rfl
      | _ => contradiction

theorem head?_comments_nil :
    (comments tabWidth [] passed).head?.map Comment.width = commentIndent? tabWidth passed :=
  head?_comments

def behindText (hasBreak : Bool) (after : List Item) : List Item :=
  if hasBreak then .blank '\n' :: after else after

section Behind

variable {text rest chars : List Char} {hasBreak : Bool} {after : List Item}

theorem indent_behindText : indent tabWidth (behindText hasBreak after) = indent tabWidth after := by
  cases hasBreak with
  | true => exact @indent_append_cons _ [] _ (.blank '\n') rfl
  | false => rfl

theorem commentIndent?_behindText :
    commentIndent? tabWidth (behindText hasBreak after)
      =
    (comments tabWidth (before ++ [.comment text hasBreak]) after).head?.map Comment.width := by
  have hindent : indent tabWidth ((behindText hasBreak after).takeWhile (!·.isComment))
      = indent tabWidth (after.takeWhile (!·.isComment)) := by
    cases hasBreak with
    | true => exact @indent_append_cons _ [] _ (.blank '\n') rfl
    | false => rfl
  have hany : (behindText hasBreak after).any Item.isComment = after.any Item.isComment := by
    cases hasBreak <;> rfl
  rw [head?_comments, commentIndent?, hindent, hany, List.append_assoc, List.singleton_append,
    indent_append_cons rfl]

variable (h : items.Splits chars (before ++ .comment text hasBreak :: after) rest)
include h

theorem drop_eq_of_splits :
    chars.drop ((items.text before).length + 1 + text.length)
      =
    if hasBreak then '\n' :: (items.text after ++ rest) else [] := by
  obtain ⟨hcomment, _⟩ := h.run.of_append_cons
  have hchars : chars = (items.text before ++ '#' :: text) ++
      ((if hasBreak then ['\n'] else []) ++ (items.text after ++ rest)) := by
    rw [h.eq_append]
    simp [items, Item.chars]
  have hlength : (items.text before).length + 1 + text.length
      = (items.text before ++ '#' :: text).length := by
    rw [List.length_append, List.length_cons]
    omega
  rw [hchars, hlength, List.drop_left]
  generalize items.text after ++ rest = more at hcomment ⊢
  -- Behind its text a comment has its line break or the end of the source
  cases hcomment with
  | comment => rfl
  | lastComment => rfl

theorem splits_behindText :
    items.Splits (chars.drop ((items.text before).length + 1 + text.length))
      (behindText hasBreak after) rest := by
  obtain ⟨hcomment, hafter⟩ := h.run.of_append_cons
  have hdrop := drop_eq_of_splits h
  cases hasBreak with
  | true => exact ⟨hdrop, .next (.blank (by decide)) hafter⟩
  | false =>
    refine ⟨?_, run_items hafter⟩
    generalize hmore : items.text after ++ rest = more at hcomment
    cases hcomment
    exact hdrop.trans hmore.symm

theorem crossedLine_behindText : rest = [] ∨ .blank '\n' ∈ behindText hasBreak after := by
  obtain ⟨hcomment, _⟩ := h.run.of_append_cons
  generalize hmore : items.text after ++ rest = more at hcomment
  cases hcomment with
  | comment => exact .inr List.mem_cons_self
  | lastComment => exact .inl (List.append_eq_nil_iff.1 hmore).2

end Behind

end Blanks

end Offside
