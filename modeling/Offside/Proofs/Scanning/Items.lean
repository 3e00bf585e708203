import Offside.Proofs.Scanning.Finds
import Offside.Proofs.Scanning.Segmentation

/-!
This module contains the items that stand between two tokens, and the proof that the way over the
blanks leads past exactly the items ahead and tells what a count of the items tells.
-/

namespace Offside

namespace Blanks

inductive Item where
  | blank (char : Char)
  | comment (text : List Char) (hasBreak : Bool)
  | continuation (space : List Char)
  deriving DecidableEq

namespace Item

def chars : Item → List Char
  | blank char => [char]
  | comment text hasBreak => '#' :: (text ++ if hasBreak then ['\n'] else [])
  | continuation space => '\\' :: space

def isComment : Item → Bool
  | comment _ _ => true
  | _ => false

def restarts : Item → Bool
  | blank char => char ∈ ['\n', '\r', '\x0c']
  | comment _ _ => true
  | continuation _ => false

/--
An item that stands in front of `rest` and could not be longer. Only the end of the source ends a
comment without a line break.
-/
inductive IsAhead : Item → (rest : List Char) → Prop
  | blank {char : Char} {rest : List Char} (h : char ∈ [' ', '\t', '\n', '\r', '\x0c']) :
    IsAhead (.blank char) rest
  | comment {text rest : List Char} (h : '\n' ∉ text) : IsAhead (.comment text true) rest
  | lastComment {text : List Char} (h : '\n' ∉ text) : IsAhead (.comment text false) []
  | carriageReturn {rest : List Char} : IsAhead (.continuation ['\r', '\n']) rest
  | continuation {char : Char} {rest : List Char}
    (h : char ∈ [' ', '\t', '\n', '\x0b', '\x0c', '\r'])
    (hrest : char = '\r' → rest.head? ≠ some '\n') : IsAhead (.continuation [char]) rest

theorem chars_ne_nil (item : Item) : item.chars ≠ [] := by
  cases item <;> simp [chars]

theorem takeWhile_append_break {text rest : List Char} (h : '\n' ∉ text) :
    (text ++ '\n' :: rest).takeWhile (· ≠ '\n') = text := by
  rw [List.takeWhile_append_of_pos, List.takeWhile_cons_of_neg, List.append_nil]
  . simp
  . intro char hmem
    rw [decide_eq_true_eq]
    rintro rfl
    contradiction

theorem IsAhead.inj {lhs rhs : Item} {more rest : List Char} (hlhs : lhs.IsAhead more)
    (hrhs : rhs.IsAhead rest) (heq : lhs.chars ++ more = rhs.chars ++ rest) : lhs = rhs := by
  cases hlhs with
  | @comment text more hlhs =>
    cases hrhs with
    | @comment other rest hrhs =>
      have htext : text ++ '\n' :: more = other ++ '\n' :: rest := by
        simpa [chars] using heq
      have htake := congrArg (List.takeWhile (· ≠ '\n')) htext
      rw [takeWhile_append_break hlhs, takeWhile_append_break hrhs] at htake
      rw [htake]
    | _ => grind [chars]
  | _ => cases hrhs <;> grind [chars]

theorem IsAhead.exists_head? {item : Item} {rest : List Char} (h : item.IsAhead rest) :
    ∃ char ∈ [' ', '\t', '\n', '\r', '\x0c', '#', '\\'], item.chars.head? = some char := by
  cases h with
  | @blank char rest h =>
    refine ⟨char, ?_, rfl⟩
    exact List.mem_append_left ['#', '\\'] h
  | comment => exact ⟨'#', by decide, rfl⟩
  | lastComment => exact ⟨'#', by decide, rfl⟩
  | carriageReturn => exact ⟨'\\', by decide, rfl⟩
  | continuation => exact ⟨'\\', by decide, rfl⟩

end Item

def items : Segmentation Item where
  chars := Item.chars
  Starts _ := Item.IsAhead
  chars_ne_nil _ := Item.chars_ne_nil _
  starts_inj := Item.IsAhead.inj

theorem stops_cons {char : Char} (h : char ∉ [' ', '\t', '\n', '\r', '\x0c', '#', '\\'])
    (isFirst : Bool) (rest : List Char) : items.Stops isFirst (char :: rest) := by
  intro item more heq hahead
  obtain ⟨first, hfirst, hhead⟩ := Item.IsAhead.exists_head? hahead
  have hchar := congrArg List.head? heq
  rw [List.head?_append, show items.chars item = item.chars from rfl, hhead] at hchar
  rw [Option.some.inj hchar] at h
  exact h hfirst

theorem run_items {isFirst other : Bool} {passed : List Item} {rest : List Char}
    (h : items.Run isFirst passed rest) : items.Run other passed rest := by
  cases h with
  | stop h => exact .stop h
  | next h hrest => exact .next h hrest

def lastLine (passed : List Item) : List Item :=
  passed.reverse.takeWhile (!·.restarts)

def columns (tabWidth : UInt32) (passed : List Item) : Nat :=
  (lastLine passed).count (.blank ' ') + tabWidth.toNat * (lastLine passed).count (.blank '\t')

def indent (tabWidth : UInt32) (passed : List Item) : UInt32 :=
  .ofNat (min (columns tabWidth passed) (UInt32.size - 1))

def commentIndent? (tabWidth : UInt32) (passed : List Item) : Option UInt32 :=
  if passed.any Item.isComment then
    some (indent tabWidth (passed.takeWhile (!·.isComment)))
  else
    none

def ofItems (tabWidth : UInt32) (passed : List Item) : Blanks where
  crossedLine := .blank '\n' ∈ passed
  width := indent tabWidth passed
  comment? := commentIndent? tabWidth passed

def ofSplit (tabWidth : UInt32) (passed : List Item) (rest : List Char) : Blanks :=
  if rest = [] then (ofItems tabWidth passed).crossLine else ofItems tabWidth passed

variable {tabWidth : UInt32} {passed : List Item} {item : Item}

theorem lastLine_append :
    lastLine (passed ++ [item]) = if item.restarts then [] else item :: lastLine passed := by
  cases h : item.restarts <;> simp [lastLine, h]

theorem columns_append (h : item.restarts = false) :
    columns tabWidth (passed ++ [item]) = columns tabWidth passed + columns tabWidth [item] := by
  have hitem : lastLine [item] = [item] := by
    simp [lastLine, h]
  unfold columns
  rw [lastLine_append, h, hitem]
  simp only [Bool.false_eq_true, if_false, List.count_cons, List.count_nil, Nat.mul_add]
  omega

theorem indent_append (h : item.restarts = true) : indent tabWidth (passed ++ [item]) = 0 := by
  rw [indent, columns, lastLine_append, if_pos h, List.count_nil, List.count_nil]
  rfl

theorem toNat_indent :
    (indent tabWidth passed).toNat = min (columns tabWidth passed) (UInt32.size - 1) := by
  apply UInt32.toNat_ofNat_of_lt
  have := Nat.min_le_right (columns tabWidth passed) (UInt32.size - 1)
  exact Nat.lt_of_le_of_lt this (by decide)

theorem commentIndent?_append :
    commentIndent? tabWidth (passed ++ [item])
      =
    (commentIndent? tabWidth passed).or
      (if item.isComment then some (indent tabWidth passed) else none) := by
  unfold commentIndent?
  cases hpassed : passed.any Item.isComment with
  | true =>
    have hlength : (passed.takeWhile (!·.isComment)).length ≠ passed.length := by
      intro hlength
      have hall := List.all_eq_true.1 (@List.all_takeWhile _ (!Item.isComment ·) passed)
      rw [(List.takeWhile_prefix _).eq_of_length hlength] at hall
      obtain ⟨other, hmem, hother⟩ := List.any_eq_true.1 hpassed
      simpa [hother] using hall other hmem
    simp [hpassed, List.takeWhile_append, hlength]
  | false =>
    have hall : ∀ other ∈ passed, (!other.isComment) = true := by
      simpa using hpassed
    cases hitem : item.isComment with
    | true => simp [hpassed, hitem, List.takeWhile_append_of_pos hall]
    | false => simp [hpassed, hitem]

theorem ofItems_append :
    ofItems tabWidth (passed ++ [item])
      =
    { crossedLine := (ofItems tabWidth passed).crossedLine || item = .blank '\n'
      width := indent tabWidth (passed ++ [item])
      comment? :=
        (ofItems tabWidth passed).comment?.or
          (if item.isComment then some (ofItems tabWidth passed).width else none) } := by
  simp only [ofItems, commentIndent?_append, mk.injEq, and_true]
  simp [eq_comm]

theorem width_widen_ofItems {more : UInt32} (h : item.restarts = false)
    (hitem : columns tabWidth [item] = more.toNat) :
    ((ofItems tabWidth passed).widen more).width = indent tabWidth (passed ++ [item]) := by
  dsimp only [widen, ofItems]
  rw [toNat_indent, indent, columns_append h, hitem]
  -- Cutting off the sum at each step comes to cutting off the whole sum
  congr 1
  omega

theorem pass?_ofItems {char : Char} (h : char ∈ [' ', '\t', '\n', '\r', '\x0c']) :
    (ofItems tabWidth passed).pass? tabWidth char
      =
    some (ofItems tabWidth (passed ++ [.blank char])) := by
  rw [ofItems_append]
  simp only [List.mem_cons, List.not_mem_nil, or_false] at h
  obtain rfl | rfl | rfl | rfl | rfl := h
  . rw [← @width_widen_ofItems _ _ _ 1 rfl (by simp [columns, lastLine, Item.restarts])]
    simp [pass?, widen, Item.isComment]
  . rw [← @width_widen_ofItems _ _ _ tabWidth rfl (by simp [columns, lastLine, Item.restarts])]
    simp [pass?, widen, Item.isComment]
  . rw [indent_append rfl]
    simp [pass?, crossLine, Item.isComment]
  . rw [indent_append rfl]
    simp [pass?, restart, Item.isComment]
  . rw [indent_append rfl]
    simp [pass?, restart, Item.isComment]

theorem comment_ofItems (text : List Char) (hasBreak : Bool) :
    (ofItems tabWidth passed).comment.restart
      =
    ofItems tabWidth (passed ++ [.comment text hasBreak]) := by
  rw [ofItems_append, indent_append rfl]
  simp [comment, restart, Item.isComment]

theorem ofItems_append_continuation (space : List Char) :
    ofItems tabWidth (passed ++ [.continuation space]) = ofItems tabWidth passed := by
  have hwidth : indent tabWidth (passed ++ [.continuation space]) = indent tabWidth passed := by
    rw [indent, columns_append rfl]
    simp [indent, columns, lastLine, Item.restarts]
  rw [ofItems_append, hwidth]
  simp [ofItems, Item.isComment]

variable {blanks : Blanks} {text rest : List Char} {isFirst : Bool} {segments : List Item}

theorem value_skip_comment (h : '\n' ∉ text) :
    (skip tabWidth true blanks (text ++ '\n' :: rest)).value
      =
    (skip tabWidth false blanks.restart rest).value := by
  induction text with
  | nil => simp [skip]
  | cons char text ih =>
    rw [List.mem_cons, not_or] at h
    rw [List.cons_append, skip, if_neg (Ne.symm h.1), Walk.value_after, ih h.2]

theorem value_skip_lastComment (h : '\n' ∉ text) :
    (skip tabWidth true blanks text).value = some (blanks.crossLine, []) := by
  induction text with
  | nil => rw [skip]
  | cons char text ih =>
    rw [List.mem_cons, not_or] at h
    rw [skip, if_neg (Ne.symm h.1), Walk.value_after, ih h.2]

theorem skip_cons_hash (chars : List Char) :
    skip tabWidth false blanks ('#' :: chars)
      =
    (skip tabWidth true blanks.comment chars).after [.skip] := by
  rw [skip.eq_def]
  rfl

theorem value_skip_continuation {char : Char} (h : isContinuation char = true)
    (hrest : char = '\r' → rest.head? ≠ some '\n') :
    (skip tabWidth false blanks ('\\' :: char :: rest)).value
      =
    (skip tabWidth false blanks rest).value := by
  rw [skip.eq_def]
  dsimp only
  rw [if_neg (by decide), if_pos rfl]
  split
  . next heq =>
    obtain ⟨rfl, rfl⟩ := List.cons.inj heq
    exact absurd rfl (hrest rfl)
  . next heq =>
    obtain ⟨rfl, rfl⟩ := List.cons.inj heq
    rw [if_pos h]
    rfl
  . contradiction

theorem pass?_eq_none {char : Char} (h : char ∉ [' ', '\t', '\n', '\r', '\x0c']) :
    blanks.pass? tabWidth char = none := by
  unfold pass?
  split <;> simp_all

theorem value_skip_cons {char : Char} (hcomment : char ≠ '#') (hbackslash : char ≠ '\\')
    (chars : List Char) :
    (skip tabWidth false blanks (char :: chars)).value
      =
    match blanks.pass? tabWidth char with
    | some blanks => (skip tabWidth false blanks chars).value
    | none => some (blanks, char :: chars) := by
  rw [skip.eq_def]
  dsimp only
  rw [if_neg hcomment, if_neg hbackslash]
  cases blanks.pass? tabWidth char <;> rfl

theorem value_skip_chars_append (h : item.IsAhead rest) :
    (skip tabWidth false (ofItems tabWidth passed) (item.chars ++ rest)).value
      =
    (skip tabWidth false (ofItems tabWidth (passed ++ [item])) rest).value := by
  cases h with
  | @blank char rest h =>
    have hcomment : char ≠ '#' := by
      rintro rfl
      simp at h
    have hbackslash : char ≠ '\\' := by
      rintro rfl
      simp at h
    rw [Item.chars, List.singleton_append, value_skip_cons hcomment hbackslash, pass?_ofItems h]
  | @comment text rest h =>
    rw [← comment_ofItems, Item.chars, if_pos rfl, List.cons_append, List.append_assoc,
      skip_cons_hash]
    apply value_skip_comment h
  | @lastComment text h =>
    rw [← comment_ofItems, Item.chars, List.append_nil, if_neg (by decide), List.append_nil,
      skip_cons_hash, Walk.value_after, value_skip_lastComment h, skip]
    rfl
  | carriageReturn =>
    rw [ofItems_append_continuation, skip.eq_def]
    rfl
  | continuation h hrest =>
    rw [ofItems_append_continuation]
    apply value_skip_continuation _ hrest
    simpa [isContinuation] using h

theorem exists_comment (text : List Char) :
    ∃ (item : Item) (rest : List Char), '#' :: text = item.chars ++ rest ∧ item.IsAhead rest := by
  by_cases hbreak : '\n' ∈ text
  . obtain ⟨before, after, rfl, hbefore⟩ := List.eq_append_cons_of_mem hbreak
    refine ⟨.comment before true, after, ?_, .comment hbefore⟩
    simp [Item.chars]
  . refine ⟨.comment text false, [], ?_, .lastComment hbreak⟩
    simp [Item.chars]

theorem value_skip_backslash (h : items.Stops isFirst ('\\' :: rest)) :
    (skip tabWidth false blanks ('\\' :: rest)).value = none := by
  rw [skip.eq_def]
  dsimp only
  rw [if_neg (by decide), if_pos rfl]
  split
  . next rest => exact absurd .carriageReturn (h (.continuation ['\r', '\n']) rest rfl)
  . next char rest hno =>
    rw [if_neg]
    intro hcontinuation
    apply h (.continuation [char]) rest rfl
    apply Item.IsAhead.continuation
    . simpa [isContinuation] using hcontinuation
    . rintro rfl hhead
      obtain ⟨more, rfl⟩ := List.head?_eq_some_iff.1 hhead
      exact hno _ rfl rfl
  . rfl

theorem value_skip_of_stops (h : items.Stops isFirst rest) :
    (skip tabWidth false blanks rest).value
      =
    if rest.head? = some '\\' then
      none
    else
      some (if rest = [] then blanks.crossLine else blanks, rest) := by
  cases rest with
  | nil => rw [skip]; rfl
  | cons char rest =>
    by_cases hbackslash : char = '\\'
    . subst hbackslash
      rw [value_skip_backslash h]
      rfl
    . have hcomment : char ≠ '#' := by
        rintro rfl
        obtain ⟨item, more, heq, hahead⟩ := exists_comment rest
        exact h item more heq hahead
      have hblank : char ∉ [' ', '\t', '\n', '\r', '\x0c'] := by
        intro hblank
        exact h (.blank char) rest rfl (.blank hblank)
      rw [value_skip_cons hcomment hbackslash, pass?_eq_none hblank]
      simp [hbackslash]

theorem value_skip_of_run (h : items.Run isFirst segments rest) :
    (skip tabWidth false (ofItems tabWidth passed) (items.text segments ++ rest)).value
      =
    if rest.head? = some '\\' then
      none
    else
      some (ofSplit tabWidth (passed ++ segments) rest, rest) := by
  induction h generalizing passed with
  | stop h =>
    rw [List.append_nil]
    apply value_skip_of_stops h
  | @next _ item segments rest h _ ih =>
    rw [Segmentation.text_cons, List.append_assoc]
    apply (value_skip_chars_append h).trans
    rw [ih, List.append_assoc]
    rfl

theorem value_skip_of_splits {chars : List Char} (h : items.Splits chars passed rest) :
    (skip tabWidth false {} chars).value
      =
    if rest.head? = some '\\' then none else some (ofSplit tabWidth passed rest, rest) := by
  rw [h.eq_append]
  apply @value_skip_of_run _ [] _ _ _ h.run

theorem length_moves_skip {chars before : List Char} {last : Blanks} (h : chars = before ++ rest)
    (hskip : (skip tabWidth false {} chars).value = some (last, rest)) (hrest : rest ≠ []) :
    (skip tabWidth false {} chars).moves.length = before.length := by
  have hdrop := congrArg List.length (rest_skip hskip)
  have hlength := congrArg List.length h
  have hpos := List.length_pos_iff.2 hrest
  rw [List.length_drop] at hdrop
  rw [List.length_append] at hlength
  omega

end Blanks

end Offside
