import Offside.Proofs.Scanning.WellFormed

/-!
This module contains the proof that a scan looks at no character behind the one that it stops at, and
at nothing of the state but the tops of the two stacks.
-/

namespace Offside

namespace Move

@[simp]
theorem passed_nil : passed [] = 0 := rfl

@[simp]
theorem passed_cons_skip (moves : List Move) : passed (.skip :: moves) = passed moves + 1 := by
  simp [passed]

@[simp]
theorem passed_cons_consume (moves : List Move) :
    passed (.consume :: moves) = passed moves + 1 := by
  simp [passed]

@[simp]
theorem passed_cons_mark (moves : List Move) : passed (.mark :: moves) = passed moves := by
  simp [passed]

@[simp]
theorem passed_append (lhs rhs : List Move) : passed (lhs ++ rhs) = passed lhs + passed rhs := by
  simp [passed]

@[simp]
theorem passed_replicate {move : Move} (h : move ≠ .mark) (count : Nat) :
    passed (List.replicate count move) = count := by
  simp [passed, List.countP_replicate, h]

end Move

inductive Agree : (count : Nat) → List Char → List Char → Prop
  | head (char : Char) (lhs rhs : List Char) : Agree 0 (char :: lhs) (char :: rhs)
  | cons (char : Char) {count : Nat} {lhs rhs : List Char} (h : Agree count lhs rhs) :
    Agree (count + 1) (char :: lhs) (char :: rhs)

namespace Agree

variable {count : Nat} {lhs rhs : List Char}

@[simp]
theorem not_nil (count : Nat) (rhs : List Char) : ¬ Agree count [] rhs := by
  rintro ⟨⟩

theorem symm (h : Agree count lhs rhs) : Agree count rhs lhs := by
  induction h with
  | head => exact .head ..
  | cons char _ ih => exact .cons char ih

theorem exists_cons {char : Char} (h : Agree count (char :: lhs) rhs) :
    ∃ rest, rhs = char :: rest := by
  cases h with
  | head => exact ⟨_, rfl⟩
  | cons => exact ⟨_, rfl⟩

section Moves

variable {char : Char} {moves : List Move}

theorem of_mark (h : Agree (Move.passed (.mark :: moves)) lhs rhs) :
    Agree (Move.passed moves) lhs rhs := by
  rw [Move.passed_cons_mark] at h
  exact h

theorem of_skip (h : Agree (Move.passed (.skip :: moves)) (char :: lhs) rhs) :
    ∃ rest, rhs = char :: rest ∧ Agree (Move.passed moves) lhs rest := by
  rw [Move.passed_cons_skip] at h
  cases h with
  | cons _ h => exact ⟨_, rfl, h⟩

theorem of_consume (h : Agree (Move.passed (.consume :: moves)) (char :: lhs) rhs) :
    ∃ rest, rhs = char :: rest ∧ Agree (Move.passed moves) lhs rest := by
  rw [Move.passed_cons_consume] at h
  cases h with
  | cons _ h => exact ⟨_, rfl, h⟩

end Moves

theorem mono {fewer : Nat} (h : Agree count lhs rhs) (hle : fewer ≤ count) : Agree fewer lhs rhs := by
  induction h generalizing fewer with
  | head char lhs rhs =>
    obtain rfl := Nat.le_zero.1 hle
    exact .head char lhs rhs
  | cons char h ih =>
    cases fewer with
    | zero => exact .head ..
    | succ fewer => exact .cons char (ih (Nat.le_of_succ_le_succ hle))

theorem lt_length (h : Agree count lhs rhs) : count < lhs.length := by
  induction h with
  | head => simp
  | cons _ _ ih => simpa using ih

theorem take_eq {fewer : Nat} (h : Agree count lhs rhs) (hle : fewer ≤ count) :
    rhs.take fewer = lhs.take fewer := by
  induction h generalizing fewer with
  | head =>
    obtain rfl := Nat.le_zero.1 hle
    rfl
  | cons char h ih =>
    cases fewer with
    | zero => rfl
    | succ fewer =>
      rw [List.take_succ_cons, List.take_succ_cons, ih (Nat.le_of_succ_le_succ hle)]

theorem drop {passed : Nat} (h : Agree (passed + count) lhs rhs) :
    Agree count (lhs.drop passed) (rhs.drop passed) := by
  induction passed generalizing lhs rhs with
  | zero =>
    rw [Nat.zero_add] at h
    exact h
  | succ passed ih =>
    rw [Nat.succ_add] at h
    cases h with
    | cons char h => exact ih h

theorem append_cons (passed : List Char) (char : Char) (lhs rhs : List Char) :
    Agree passed.length (passed ++ char :: lhs) (passed ++ char :: rhs) := by
  induction passed with
  | nil => exact .head ..
  | cons first passed ih => exact .cons first ih

theorem takeWhile_eq {p : Char → Bool} (h : Agree count lhs rhs)
    (hle : (lhs.takeWhile p).length ≤ count) : rhs.takeWhile p = lhs.takeWhile p := by
  induction h with
  | head char lhs rhs =>
    rw [List.takeWhile_cons] at hle ⊢
    split at hle
    . simp at hle
    . next hchar => rw [List.takeWhile_cons, if_neg hchar, if_neg hchar]
  | cons char h ih =>
    rw [List.takeWhile_cons] at hle ⊢
    split at hle
    . next hchar =>
      rw [List.takeWhile_cons, if_pos hchar, if_pos hchar, ih (Nat.le_of_succ_le_succ hle)]
    . next hchar => rw [List.takeWhile_cons, if_neg hchar, if_neg hchar]

theorem dropWhile {p : Char → Bool} (h : Agree ((lhs.takeWhile p).length + count) lhs rhs) :
    Agree count (lhs.dropWhile p) (rhs.dropWhile p) := by
  induction lhs generalizing rhs with
  | nil => simp at h
  | cons char lhs ih =>
    rw [List.takeWhile_cons] at h
    rw [List.dropWhile_cons]
    split at h
    . next hchar =>
      rw [List.length_cons, Nat.succ_add] at h
      cases h with
      | cons _ h =>
        rw [List.dropWhile_cons, if_pos hchar, if_pos hchar]
        exact ih h
    . next hchar =>
      rw [List.length_nil, Nat.zero_add] at h
      obtain ⟨rest, rfl⟩ := h.exists_cons
      rw [List.dropWhile_cons, if_neg hchar, if_neg hchar]
      exact h

end Agree

namespace Blanks

variable {tabWidth : UInt32} {inComment : Bool} {blanks : Blanks} {lhs rhs : List Char}

theorem skip_eq_of_agree
    (h : Agree (Move.passed (skip tabWidth inComment blanks lhs).moves) lhs rhs) :
    (skip tabWidth inComment blanks rhs).moves = (skip tabWidth inComment blanks lhs).moves ∧
      (skip tabWidth inComment blanks rhs).value.map Prod.fst
        = (skip tabWidth inComment blanks lhs).value.map Prod.fst := by
  fun_induction skip tabWidth inComment blanks lhs generalizing rhs with
  | case1 | case2 => simp at h
  | case3 blanks chars ih =>
    obtain ⟨rest, rfl, hrest⟩ := h.of_skip
    simp [skip, ih hrest]
  | case4 blanks char chars hchar ih =>
    obtain ⟨rest, rfl, hrest⟩ := h.of_skip
    simp [skip, hchar, ih hrest]
  | case5 blanks chars ih =>
    obtain ⟨rest, rfl, hrest⟩ := h.of_skip
    rw [skip.eq_def]
    simp [ih hrest]
  | case6 blanks rest hhash ih =>
    obtain ⟨_, rfl, hsecond⟩ := h.of_skip
    obtain ⟨_, rfl, hthird⟩ := hsecond.of_skip
    obtain ⟨rest, rfl, hrest⟩ := hthird.of_skip
    rw [skip.eq_def]
    simp [ih hrest]
  | case7 blanks space rest hcrlf hspace hhash ih =>
    obtain ⟨_, rfl, hmore⟩ := h.of_skip
    obtain ⟨other, rfl, hrest⟩ := hmore.of_skip
    rw [skip]
    . simp [hspace, ih hrest]
    -- A line break behind the carriage return would be one in both texts
    . rintro more rfl rfl
      obtain ⟨tail, rfl⟩ := hrest.symm.exists_cons
      exact hcrlf tail rfl rfl
  | case8 blanks space rest hcrlf hspace hhash =>
    obtain ⟨_, rfl, hmore⟩ := h.of_skip
    obtain ⟨rest, rfl⟩ := hmore.exists_cons
    rw [skip]
    . simp [hspace]
    . rintro more rfl
      contradiction
  | case9 =>
    obtain ⟨_, rfl, hrest⟩ := h.of_skip
    simp at hrest
  | case10 blanks char chars hhash hbackslash next hpass ih =>
    obtain ⟨rest, rfl, hrest⟩ := h.of_skip
    rw [skip.eq_def]
    simp [hhash, hbackslash, hpass, ih hrest]
  | case11 blanks char chars hhash hbackslash hpass =>
    obtain ⟨rest, rfl⟩ := h.exists_cons
    rw [skip.eq_def]
    simp [hhash, hbackslash, hpass]

theorem passed_skip (tabWidth : UInt32) (inComment : Bool) (blanks : Blanks) (chars : List Char) :
    Move.passed (skip tabWidth inComment blanks chars).moves
      =
    (skip tabWidth inComment blanks chars).moves.length := by
  rw [Move.passed, List.countP_eq_length]
  intro move hmove
  rw [moves_skip _ _ _ _ move hmove]
  rfl

end Blanks

namespace Literal

variable {delimiter : Delimiter} {quote : Char} {hasText : Bool} {lhs rhs : List Char}

theorem scanText_eq_of_agree
    (h : Agree (Move.passed (scanText delimiter quote hasText lhs).moves) lhs rhs) :
    scanText delimiter quote hasText rhs = scanText delimiter quote hasText lhs := by
  fun_induction scanText delimiter quote hasText lhs generalizing rhs with
  | case1 => simp at h
  | case2 | case6 | case10 =>
    obtain ⟨_, rfl, hrest⟩ := h.of_mark.of_consume
    simp at hrest
  | case3 hasText char hbrace rest ih =>
    obtain ⟨_, rfl, hmore⟩ := h.of_mark.of_consume
    obtain ⟨rest, rfl, hrest⟩ := hmore.of_consume
    rw [scanText.eq_def]
    simp [hbrace, ih hrest]
  | case4 hasText char hbrace next rest hnext =>
    obtain ⟨_, rfl, hmore⟩ := h.of_mark.of_consume
    obtain ⟨rest, rfl⟩ := hmore.exists_cons
    rw [scanText.eq_def]
    simp [hbrace, hnext]
  | case5 hasText chars hraw hbrace ih =>
    obtain ⟨rest, rfl, hrest⟩ := h.of_consume
    rw [scanText.eq_def]
    simp [hraw, ih hrest]
  | case7 hasText hraw hbytes next rest hnext hbrace ih =>
    obtain ⟨_, rfl, hmore⟩ := h.of_mark.of_consume
    obtain ⟨rest, rfl, hrest⟩ := hmore.of_consume
    rw [scanText.eq_def]
    simp [hraw, hbytes, hnext, ih hrest]
  | case8 hasText hraw hbytes next rest hnext hbrace =>
    obtain ⟨_, rfl, hmore⟩ := h.of_mark.of_consume
    obtain ⟨rest, rfl⟩ := hmore.exists_cons
    rw [scanText.eq_def]
    simp [hraw, hbytes, hnext]
  | case9 hasText chars hraw hbytes hbrace =>
    obtain ⟨rest, rfl⟩ := h.of_mark.exists_cons
    rw [scanText.eq_def]
    simp [hraw, hbytes]
  | case11 =>
    obtain ⟨_, rfl, hmore⟩ := h.of_mark.of_consume
    obtain ⟨_, rfl, hrest⟩ := hmore.of_consume
    simp at hrest
  -- Where a quote may be the first of three, two more characters are looked at
  | case12 htriple rest hbrace hbackslash =>
    obtain ⟨_, rfl, hsecond⟩ := h.of_mark.of_consume
    obtain ⟨_, rfl, hthird⟩ := hsecond.of_consume
    obtain ⟨rest, rfl⟩ := hthird.exists_cons
    rw [scanText.eq_def]
    simp only [hbrace, hbackslash, htriple, if_true, if_false]
  | case13 hasText htriple rest htext hbrace hbackslash =>
    obtain ⟨_, rfl, hsecond⟩ := h.of_mark.of_consume
    obtain ⟨_, rfl, hthird⟩ := hsecond.of_consume
    obtain ⟨rest, rfl, hrest⟩ := hthird.of_consume
    rw [scanText.eq_def]
    simp only [hbrace, hbackslash, htriple, htext, if_true, if_false]
    rfl
  | case14 hasText htriple next rest hnext hbrace hbackslash ih =>
    obtain ⟨_, rfl, hmore⟩ := h.of_mark.of_consume
    obtain ⟨_, rfl, hrest⟩ := hmore.of_consume
    obtain ⟨tail, rfl⟩ := hrest.exists_cons
    rw [scanText.eq_def]
    simp only [hbrace, hbackslash, htriple, hnext, ih hrest, if_true, if_false]
  | case15 hasText htriple next rest hnext hbrace hbackslash ih =>
    obtain ⟨_, rfl, hrest⟩ := h.of_mark.of_consume
    obtain ⟨tail, rfl⟩ := hrest.exists_cons
    rw [scanText.eq_def]
    simp only [hbrace, hbackslash, htriple, hnext, ih hrest, if_true, if_false]
  | case16 chars htriple hbrace hbackslash =>
    obtain ⟨rest, rfl⟩ := h.of_mark.exists_cons
    rw [scanText.eq_def]
    simp only [hbrace, hbackslash, htriple, if_true, if_false]
    rfl
  | case17 hasText chars htriple htext hbrace hbackslash =>
    obtain ⟨rest, rfl, hrest⟩ := h.of_consume
    rw [scanText.eq_def]
    simp only [hbrace, hbackslash, htriple, htext, if_true, if_false]
    rfl
  | case18 hasText char chars hbrace hbackslash hquote hline =>
    obtain ⟨rest, rfl⟩ := h.exists_cons
    rw [scanText.eq_def]
    dsimp only
    rw [if_neg hbrace, if_neg hbackslash, if_neg hquote, if_pos hline]
  | case19 hasText char chars hbrace hbackslash hquote hline ih =>
    obtain ⟨rest, rfl, hrest⟩ := h.of_consume
    rw [scanText.eq_def]
    simp only [hbrace, hbackslash, hquote, hline, ih hrest, if_false]

theorem scanContent_eq_of_agree
    (h : Agree (Move.passed (scanContent delimiter lhs).moves) lhs rhs) :
    scanContent delimiter rhs = scanContent delimiter lhs := by
  unfold scanContent at h ⊢
  split at h
  . apply scanText_eq_of_agree h
  . rfl

theorem passed_consume_append (letters : List Char) (moves : List Move) :
    Move.passed ((letters.map fun _ => .consume) ++ moves) = letters.length + Move.passed moves := by
  induction letters with
  | nil => rw [List.map_nil, List.nil_append, List.length_nil, Nat.zero_add]
  | cons letter letters ih =>
    rw [List.map_cons, List.cons_append, Move.passed_cons_consume, ih, List.length_cons,
      Nat.add_right_comm]

theorem exists_moves_scanStart (chars : List Char) :
    ∃ moves, (scanStart chars).moves = ((chars.takeWhile isLetter).map fun _ => .consume) ++ moves := by
  unfold scanStart
  dsimp only
  repeat' split
  . exact ⟨[], (List.append_nil _).symm⟩
  . exact ⟨[], (List.append_nil _).symm⟩
  . exact ⟨[], (List.append_nil _).symm⟩
  . exact ⟨_, rfl⟩
  . exact ⟨_, List.append_assoc ..⟩
  . exact ⟨_, List.append_assoc ..⟩

theorem scanStart_eq_of_agree (h : Agree (Move.passed (scanStart lhs).moves) lhs rhs) :
    scanStart rhs = scanStart lhs := by
  obtain ⟨moves, hmoves⟩ := exists_moves_scanStart lhs
  rw [hmoves, passed_consume_append] at h
  have hletters := h.takeWhile_eq (Nat.le_add_right ..)
  have hrest := h.dropWhile
  unfold scanStart at hmoves ⊢
  dsimp only at hmoves ⊢
  rw [hletters]
  generalize lhs.dropWhile isLetter = lhs, rhs.dropWhile isLetter = rhs at hmoves hrest ⊢
  cases lhs with
  | nil => simp at hrest
  | cons quote lhs =>
    dsimp only at hmoves ⊢
    split at hmoves
    . next hquote =>
      obtain rfl := List.self_eq_append_right.1 hmoves
      obtain ⟨rest, rfl⟩ := hrest.exists_cons
      dsimp only
      rw [hquote]
    . next delimiter hquote =>
      split at hmoves
      . next hnone =>
        obtain rfl := List.append_cancel_left hmoves
        obtain ⟨rest, rfl, hquotes⟩ := hrest.of_consume
        dsimp only
        rw [hquote, hquotes.takeWhile_eq (Nat.le_of_eq hnone)]
        dsimp only
        rw [hnone]
      . next hone =>
        rw [List.append_assoc] at hmoves
        obtain rfl := List.append_cancel_left hmoves
        obtain ⟨rest, rfl, hquotes⟩ := hrest.of_consume
        dsimp only
        rw [hquote, hquotes.takeWhile_eq (Nat.le_of_eq hone)]
        dsimp only
        rw [hone]
      . next more htwo =>
        rw [List.append_assoc] at hmoves
        obtain rfl := List.append_cancel_left hmoves
        obtain ⟨rest, rfl, hquotes⟩ := hrest.of_consume
        rcases hquotes with _ | ⟨second, _ | ⟨third, hquotes⟩⟩
        obtain ⟨rfl, rfl⟩ : second = quote ∧ third = quote := by
          grind [List.takeWhile_cons]
        dsimp only
        rw [hquote]
        simp

end Literal

namespace Layout

variable {tabWidth top : UInt32} {valid : TokenSet} {lhs rhs : List Char}

theorem scan_eq_of_agree (h : Agree (Move.passed (scan tabWidth top valid lhs).moves) lhs rhs) :
    scan tabWidth top valid rhs = scan tabWidth top valid lhs := by
  obtain ⟨after, hmoves, -⟩ := exists_moves_scan tabWidth top valid lhs
  rw [hmoves, List.cons_append, Move.passed_cons_mark, Move.passed_append] at h
  obtain ⟨hskip, hblanks⟩ := Blanks.skip_eq_of_agree (h.mono (Nat.le_add_right ..))
  rw [Blanks.passed_skip] at h
  have hrest := h.drop
  unfold scan at hmoves ⊢
  dsimp only at hmoves ⊢
  rw [hskip]
  cases hlhs : (Blanks.skip tabWidth false {} lhs).value with
  | none =>
    rw [hlhs, Option.map_none, Option.map_eq_none_iff] at hblanks
    rw [hblanks]
  | some skipped =>
    obtain ⟨blanks, rest⟩ := skipped
    rw [hlhs, Option.map_some, Option.map_eq_some_iff] at hblanks
    obtain ⟨⟨_, other⟩, hrhs, rfl⟩ := hblanks
    rw [hlhs] at hmoves
    rw [hrhs]
    rw [← Blanks.rest_skip hlhs, ← hskip, ← Blanks.rest_skip hrhs] at hrest
    dsimp only at hmoves ⊢
    split
    . rfl
    . next hline =>
      split
      . next hstart =>
        rw [hline, if_pos hstart, Walk.moves_after, List.cons_append, List.cons_append,
          List.cons.injEq, List.append_cancel_left_eq] at hmoves
        rw [← hmoves.2] at hrest
        rw [Literal.scanStart_eq_of_agree hrest]
      . rfl

end Layout

namespace State

variable {state other : State} {tabWidth : UInt32} {valid : TokenSet} {lhs rhs : List Char}

theorem scan_eq_of_agree (htop : other.indents.top = state.indents.top)
    (hdelimiter : other.delimiter? = state.delimiter?)
    (h : Agree (Move.passed (state.scan tabWidth valid lhs).moves) lhs rhs) :
    other.scan tabWidth valid rhs = state.scan tabWidth valid lhs := by
  unfold scan at h ⊢
  rw [htop, hdelimiter]
  split at h
  . apply Literal.scanContent_eq_of_agree h
  . apply Layout.scan_eq_of_agree h

end State

end Offside
