import Offside.Proofs.Scanning.Opening
import Offside.Scanner

/-!
This module contains everything that a scan can find, with the moves that it makes on the way.
-/

namespace Offside

namespace Blanks

theorem moves_skip (tabWidth : UInt32) (inComment : Bool) (blanks : Blanks) (chars : List Char) :
    ∀ move ∈ (skip tabWidth inComment blanks chars).moves, move = .skip := by
  fun_induction skip tabWidth inComment blanks chars
  all_goals simp
  all_goals assumption

theorem moves_skip_eq (tabWidth : UInt32) (inComment : Bool) (blanks : Blanks) (chars : List Char) :
    (skip tabWidth inComment blanks chars).moves
      =
    List.replicate (skip tabWidth inComment blanks chars).moves.length .skip := by
  rw [List.eq_replicate_iff]
  constructor
  . rfl
  . apply moves_skip

theorem rest_skip {tabWidth : UInt32} {inComment : Bool} {blanks last : Blanks}
    {chars rest : List Char}
    (h : (skip tabWidth inComment blanks chars).value = some (last, rest)) :
    rest = chars.drop (skip tabWidth inComment blanks chars).moves.length := by
  fun_induction skip tabWidth inComment blanks chars
  all_goals simp_all

end Blanks

namespace Literal

variable {delimiter : Delimiter} {quote : Char} {hasText : Bool} {chars : List Char}

theorem moves_scanText :
    ∀ move ∈ (scanText delimiter quote hasText chars).moves, move ≠ .skip := by
  fun_induction scanText delimiter quote hasText chars
  all_goals simp_all

theorem scanText_ne_stringEnd (h : hasText = true) :
    (scanText delimiter quote hasText chars).value ≠ some .stringEnd := by
  fun_induction scanText delimiter quote hasText chars
  all_goals simp_all [text?]

theorem moves_scanStart (chars : List Char) :
    ∀ move ∈ (scanStart chars).moves, move ≠ .skip := by
  intro move hmove
  unfold scanStart at hmove
  dsimp only at hmove
  repeat' split at hmove
  all_goals simp at hmove
  all_goals grind

theorem moves_scanContent (delimiter : Delimiter) (chars : List Char) :
    ∀ move ∈ (scanContent delimiter chars).moves, move ≠ .skip := by
  unfold scanContent
  split
  . apply moves_scanText
  . simp

theorem eq_of_scanText {found : Found}
    (h : (scanText delimiter quote hasText chars).value = some found) :
    found = .stringContent ∨ found = .stringEnd := by
  fun_induction scanText delimiter quote hasText chars
  all_goals simp_all [text?]

theorem mark_mem_scanText {found : Found}
    (h : (scanText delimiter quote hasText chars).value = some found) :
    .mark ∈ (scanText delimiter quote hasText chars).moves := by
  fun_induction scanText delimiter quote hasText chars
  all_goals simp_all [text?]

def closing (delimiter : Delimiter) (quote : Char) : List Char :=
  List.replicate (if delimiter.isTriple then 3 else 1) quote

theorem Opening.closing_eq_quotes (opening : Opening) :
    closing opening.delimiter opening.quote.char = opening.quotes := by
  rw [closing, isTriple_delimiter, quotes]

def closingMoves (delimiter : Delimiter) : List Move :=
  if delimiter.isTriple then [.mark, .consume, .consume, .consume, .mark] else [.consume, .mark]

theorem closing_of_scanText
    (h : (scanText delimiter quote hasText chars).value = some .stringEnd) :
    ∃ rest, chars = closing delimiter quote ++ rest ∧
      (scanText delimiter quote hasText chars).moves = closingMoves delimiter := by
  -- Every step that reads on has read some text
  have hnever := @scanText_ne_stringEnd delimiter quote true
  fun_induction scanText delimiter quote hasText chars
  all_goals simp_all [text?, closing, closingMoves, List.replicate]

theorem follow_closingMoves {quote : Char} {rest : List Char} :
    (Reader.follow { rest := closing delimiter quote ++ rest : Track }
        (closingMoves delimiter)).start = 0 ∧
      (Reader.follow { rest := closing delimiter quote ++ rest : Track }
        (closingMoves delimiter)).mark? = some (closing delimiter quote).length := by
  unfold closing closingMoves
  split
  . exact ⟨rfl, rfl⟩
  . exact ⟨rfl, rfl⟩

theorem follow_skips_moves {opening : Opening} {chars rest : List Char} {skipped : Nat}
    (looked : Nat) (h : chars.drop skipped = opening.text ++ rest) :
    (Reader.follow { rest := chars : Track } (.mark :: List.replicate skipped .skip ++
        (opening.moves ++ List.replicate looked .consume))).start = skipped ∧
      (Reader.follow { rest := chars : Track } (.mark :: List.replicate skipped .skip ++
        (opening.moves ++ List.replicate looked .consume))).mark?
        = some (skipped + opening.text.length) := by
  have hskipped : skipped ≤ chars.length := by
    have hlength := congrArg List.length h
    rw [List.length_drop, List.length_append, opening.length_text] at hlength
    omega
  rw [List.cons_append, Track.follow_mark, Reader.follow_append, Reader.follow_append,
    Track.follow_replicate_skip rfl hskipped, opening.follow_moves h]
  simp [Track.follow_replicate_consume_mark?, Track.mark]

end Literal

namespace Layout

variable {top : UInt32} {valid : TokenSet} {blanks : Blanks}

theorem line?_eq_some {found : Found} (h : line? top valid blanks = some found) :
    found = .indent blanks.width ∧ .indent ∈ valid ∧ top < blanks.width ∨
      found = .dedent ∧ .dedent ∈ valid ∧ blanks.width < top ∨
      found = .newline ∧ .newline ∈ valid := by
  unfold line? at h
  split at h
  . simp_all
  . split at h
    . simp_all
    . split at h
      . simp_all
      . contradiction

theorem scan_eq_some {tabWidth : UInt32} {chars : List Char} {found : Found}
    (h : (scan tabWidth top valid chars).value = some found) :
    ∃ (skipped : Nat) (blanks : Blanks),
      line? top valid blanks = some found ∧
        (scan tabWidth top valid chars).moves = .mark :: List.replicate skipped .skip ∨
      .stringStart ∈ valid ∧
        (Literal.scanStart (chars.drop skipped)).value = some found ∧
        (scan tabWidth top valid chars).moves =
          .mark :: List.replicate skipped .skip ++
            (Literal.scanStart (chars.drop skipped)).moves := by
  -- The characters that were skipped are as many as the moves
  have hmoves := Blanks.moves_skip_eq tabWidth false {} chars
  refine ⟨(Blanks.skip tabWidth false {} chars).moves.length, ?_⟩
  unfold scan at h ⊢
  dsimp only at h ⊢
  split at h
  . contradiction
  . next blanks rest hskip =>
    have hrest := Blanks.rest_skip hskip
    split at h
    . next other hline =>
      split at hline
      . refine ⟨blanks, .inl ⟨?_, ?_⟩⟩
        . rw [hline]
          exact h
        . rw [← hmoves]
      . contradiction
    . next hline =>
      split at h
      . next hstart =>
        refine ⟨blanks, .inr ⟨hstart.2, ?_, ?_⟩⟩
        . rw [← hrest]
          exact h
        . rw [if_pos hstart, ← hmoves, ← hrest]
          rfl
      . contradiction

theorem exists_moves_scan (tabWidth top : UInt32) (valid : TokenSet) (chars : List Char) :
    ∃ after, (scan tabWidth top valid chars).moves =
        .mark :: (Blanks.skip tabWidth false {} chars).moves ++ after ∧
      ∀ move ∈ after, move ≠ .skip := by
  unfold scan
  dsimp only
  split
  . refine ⟨[], ?_, by simp⟩
    rw [List.append_nil]
  . split
    . refine ⟨[], ?_, by simp⟩
      rw [List.append_nil]
    . split
      . refine ⟨_, rfl, ?_⟩
        apply Literal.moves_scanStart
      . refine ⟨[], ?_, by simp⟩
        rw [List.append_nil]

end Layout

namespace State

def literal? (state : State) (valid : TokenSet) : Option Delimiter :=
  if .stringContent ∈ valid ∧ .indent ∉ valid then state.delimiter? else none

inductive Finds (state : State) (valid : TokenSet) (chars : List Char) : Found → List Move → Prop
  | newline (skipped : Nat) (hvalid : .newline ∈ valid) (hliteral : state.literal? valid = none) :
    Finds state valid chars .newline (.mark :: List.replicate skipped .skip)
  | indent (skipped : Nat) {level : UInt32} (hvalid : .indent ∈ valid)
    (hliteral : state.literal? valid = none) (hlevel : state.indents.top < level) :
    Finds state valid chars (.indent level) (.mark :: List.replicate skipped .skip)
  | dedent (skipped : Nat) {width : UInt32} (hvalid : .dedent ∈ valid)
    (hliteral : state.literal? valid = none) (hwidth : width < state.indents.top) :
    Finds state valid chars .dedent (.mark :: List.replicate skipped .skip)
  | stringStart (skipped looked : Nat) {opening : Literal.Opening} {rest : List Char}
    (hvalid : .stringStart ∈ valid) (hliteral : state.literal? valid = none)
    (hchars : chars.drop skipped = opening.text ++ rest) :
    Finds state valid chars (.stringStart opening.delimiter)
      (.mark :: List.replicate skipped .skip ++
        (opening.moves ++ List.replicate looked .consume))
  | stringContent {delimiter : Delimiter} {moves : List Move}
    (hliteral : state.literal? valid = some delimiter) (hmark : .mark ∈ moves) :
    Finds state valid chars .stringContent moves
  | stringEnd {delimiter : Delimiter} {quote : Quote} {rest : List Char}
    (hliteral : state.literal? valid = some delimiter) (hquote : delimiter.quote? = some quote)
    (hchars : chars = Literal.closing delimiter quote.char ++ rest) :
    Finds state valid chars .stringEnd (Literal.closingMoves delimiter)

variable {state : State} {tabWidth : UInt32} {valid : TokenSet} {chars : List Char} {found : Found}

theorem Finds.mark_mem {moves : List Move} (h : Finds state valid chars found moves) :
    .mark ∈ moves := by
  cases h with
  | newline => simp
  | indent => simp
  | dedent => simp
  | stringStart => simp
  | stringContent _ hmark => exact hmark
  | stringEnd =>
    unfold Literal.closingMoves
    split <;> simp

theorem delimiter?_of_literal? {delimiter : Delimiter} (h : state.literal? valid = some delimiter) :
    state.delimiter? = some delimiter := by
  unfold literal? at h
  split at h
  . exact h
  . contradiction

theorem scan_of_literal?_eq_some {delimiter : Delimiter} (h : state.literal? valid = some delimiter) :
    state.scan tabWidth valid chars = Literal.scanContent delimiter chars := by
  unfold literal? at h
  rw [scan, h]

theorem scan_of_literal?_eq_none (h : state.literal? valid = none) :
    state.scan tabWidth valid chars = Layout.scan tabWidth state.indents.top valid chars := by
  unfold literal? at h
  rw [scan, h]

theorem exists_moves_scan (state : State) (tabWidth : UInt32) (valid : TokenSet)
    (chars : List Char) :
    ∃ before after, (state.scan tabWidth valid chars).moves = before ++ after ∧
      (∀ move ∈ before, move ≠ .consume) ∧ ∀ move ∈ after, move ≠ .skip := by
  cases hliteral : state.literal? valid with
  | some delimiter =>
    rw [scan_of_literal?_eq_some hliteral]
    refine ⟨[], _, rfl, by simp, ?_⟩
    apply Literal.moves_scanContent
  | none =>
    rw [scan_of_literal?_eq_none hliteral]
    obtain ⟨after, hmoves, hafter⟩ :=
      Layout.exists_moves_scan tabWidth state.indents.top valid chars
    refine ⟨_, after, hmoves, ?_, hafter⟩
    rw [List.forall_mem_cons]
    constructor
    . simp
    . intro move hmove
      rw [Blanks.moves_skip _ _ _ _ move hmove]
      simp

theorem finds_of_scan (h : (state.scan tabWidth valid chars).value = some found) :
    Finds state valid chars found (state.scan tabWidth valid chars).moves := by
  cases hliteral : state.literal? valid with
  | some delimiter =>
    rw [scan_of_literal?_eq_some hliteral] at h ⊢
    unfold Literal.scanContent at h ⊢
    split at h
    . next quote hquote =>
      cases Literal.eq_of_scanText h with
      | inl hcontent =>
        subst hcontent
        apply Finds.stringContent hliteral
        apply Literal.mark_mem_scanText h
      | inr hend =>
        subst hend
        obtain ⟨rest, hchars, hmoves⟩ := Literal.closing_of_scanText h
        rw [hmoves]
        apply Finds.stringEnd hliteral hquote hchars
    . contradiction
  | none =>
    rw [scan_of_literal?_eq_none hliteral] at h ⊢
    obtain ⟨skipped, blanks, ⟨hline, hmoves⟩ | ⟨hvalid, hstart, hmoves⟩⟩ := Layout.scan_eq_some h
    . rw [hmoves]
      obtain ⟨rfl, hvalid, hlevel⟩ | ⟨rfl, hvalid, hwidth⟩ | ⟨rfl, hvalid⟩ :=
        Layout.line?_eq_some hline
      . apply Finds.indent skipped hvalid hliteral hlevel
      . apply Finds.dedent skipped hvalid hliteral hwidth
      . apply Finds.newline skipped hvalid hliteral
    . rw [hmoves]
      obtain ⟨opening, rest, looked, hahead, rfl, hopening⟩ :=
        Literal.exists_opening_of_scanStart hstart
      rw [hopening]
      apply Finds.stringStart skipped looked hvalid hliteral hahead.eq_append

end State

end Offside
