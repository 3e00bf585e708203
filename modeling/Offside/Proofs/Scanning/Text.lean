import Offside.Proofs.Scanning.Answer
import Offside.Proofs.Scanning.Locality
import Offside.Proofs.Scanning.Segmentation

/-!
This module contains the units that the text of a literal is made of, and the proof that a scan within
a literal reads exactly the units ahead and that what stands behind them decides what it finds.
-/

namespace Offside

namespace Track

variable {track : Track} {moves : List Move}

theorem passed_follow (h : Move.passed moves ≤ track.rest.length) :
    (Reader.follow track moves).passed = track.passed + Move.passed moves := by
  induction moves generalizing track with
  | nil => rfl
  | cons next moves ih =>
    rw [Reader.follow_cons]
    cases next with
    | mark =>
      rw [Move.passed_cons_mark] at h ⊢
      exact @ih track.mark h
    | skip =>
      rw [Move.passed_cons_skip] at h ⊢
      obtain ⟨_ | ⟨char, rest⟩, passed, start, mark?⟩ := track
      . simp at h
      . rw [ih (Nat.le_of_succ_le_succ h)]
        simp only [Reader.move, skip]
        omega
    | consume =>
      rw [Move.passed_cons_consume] at h ⊢
      obtain ⟨_ | ⟨char, rest⟩, passed, start, mark?⟩ := track
      . simp at h
      . rw [ih (Nat.le_of_succ_le_succ h)]
        simp only [Reader.move, consume]
        omega

theorem start_follow (h : ∀ move ∈ moves, move ≠ .skip) :
    (Reader.follow track moves).start = track.start := by
  apply Reader.follow_inv fun later : Track => later.start = track.start
  . intro next hmem later hlater
    cases next with
    | skip => exact absurd rfl (h _ hmem)
    | consume =>
      simp only [Reader.move, consume]
      split <;> exact hlater
    | mark => exact hlater
  . rfl

end Track

namespace Literal

/--
A unit of plain text in a literal, if `rest` follows it. In a literal with one quote on each side a
line break is plain text at the start only.
-/
inductive IsUnit (delimiter : Delimiter) (quote : Quote) (isFirst : Bool) :
    List Char → (rest : List Char) → Prop
  | braces {rest : List Char} (h : delimiter.isFormat = true) :
    IsUnit delimiter quote isFirst ['\x7b', '\x7b'] rest
  | backslash {rest : List Char} (h : delimiter.isRaw = true) :
    IsUnit delimiter quote isFirst ['\\'] rest
  | charName {char : Char} {rest : List Char} (hraw : delimiter.isRaw = false)
    (hbytes : delimiter.isBytes = true) (hchar : char ∈ ['N', 'u', 'U']) :
    IsUnit delimiter quote isFirst ['\\', char] rest
  | quotes {count : Nat} {rest : List Char} (htriple : delimiter.isTriple = true)
    (hcount : count = 1 ∨ count = 2) (hrest : rest.head? ≠ some quote.char) :
    IsUnit delimiter quote isFirst (List.replicate count quote.char) rest
  | char {char : Char} {rest : List Char} (hquote : char ≠ quote.char) (hbackslash : char ≠ '\\')
    (hbrace : ¬ (char = '\x7b' ∧ delimiter.isFormat = true))
    (hline : char = '\n' → delimiter.isTriple = true ∨ isFirst = true) :
    IsUnit delimiter quote isFirst [char] rest

theorem quote_ne (quote : Quote) :
    quote.char ≠ '\x7b' ∧ quote.char ≠ '\\' ∧ quote.char ≠ '\n' := by
  cases quote <;> decide

variable {delimiter : Delimiter} {quote : Quote} {isFirst : Bool}

theorem IsUnit.ne_nil {unit rest : List Char} (h : IsUnit delimiter quote isFirst unit rest) :
    unit ≠ [] := by
  cases h with
  | quotes _ hcount => obtain rfl | rfl := hcount <;> simp
  | _ => simp

theorem IsUnit.inj {lhs rhs more rest : List Char} (hlhs : IsUnit delimiter quote isFirst lhs more)
    (hrhs : IsUnit delimiter quote isFirst rhs rest) (heq : lhs ++ more = rhs ++ rest) :
    lhs = rhs := by
  obtain ⟨hbrace, hbackslash, hline⟩ := quote_ne quote
  cases hlhs <;> cases hrhs <;> grind

def units (delimiter : Delimiter) (quote : Quote) : Segmentation (List Char) where
  chars := id
  Starts := IsUnit delimiter quote
  chars_ne_nil h := h.ne_nil
  starts_inj := IsUnit.inj

variable {hasText : Bool} {unit rest chars : List Char}

theorem scanText_unit_append (h : IsUnit delimiter quote (!hasText) unit rest) :
    ∃ moves, scanText delimiter quote.char hasText (unit ++ rest)
        = (scanText delimiter quote.char true rest).after moves ∧
      Move.passed moves = unit.length ∧ ∀ move ∈ moves, move ≠ .skip := by
  cases h with
  | braces hformat =>
    refine ⟨[.mark, .consume, .consume], ?_, rfl, by simp⟩
    rw [scanText.eq_def]
    simp [hformat]
  | backslash hraw =>
    refine ⟨[.consume], ?_, rfl, by simp⟩
    rw [scanText.eq_def]
    simp [hraw]
  | charName hraw hbytes hchar =>
    refine ⟨[.mark, .consume, .consume], ?_, rfl, by simp⟩
    rw [scanText.eq_def]
    simp [hraw, hbytes, namesChar, hchar]
  | quotes htriple hcount hrest =>
    obtain ⟨hbrace, hbackslash, _⟩ := quote_ne quote
    cases hcount with
    | inl hone =>
      subst hone
      refine ⟨[.mark, .consume], ?_, rfl, by simp⟩
      rw [List.replicate_one, List.singleton_append, scanText.eq_def]
      cases rest with
      | nil => simp [htriple, hbrace, hbackslash, scanText, Walk.after]
      | cons second rest =>
        have hsecond : second ≠ quote.char := by simpa using hrest
        simp [htriple, hbrace, hbackslash, hsecond]
    | inr htwo =>
      subst htwo
      refine ⟨[.mark, .consume, .consume], ?_, rfl, by simp⟩
      rw [List.replicate_succ, List.replicate_one, List.cons_append, List.singleton_append,
        scanText.eq_def]
      cases rest with
      | nil => simp [htriple, hbrace, hbackslash, scanText, Walk.after]
      | cons third rest =>
        have hthird : third ≠ quote.char := by simpa using hrest
        simp [htriple, hbrace, hbackslash, hthird]
  | @char char _ hquote hbackslash hbrace hline =>
    refine ⟨[.consume], ?_, rfl, by simp⟩
    rw [scanText.eq_def]
    have hread : ¬ (char = '\n' ∧ hasText = true ∧ ¬ delimiter.isTriple = true) := by
      rintro ⟨hchar, htext, htriple⟩
      simpa [htext, htriple] using hline hchar
    dsimp only [List.singleton_append]
    rw [if_neg hbrace, if_neg hbackslash, if_neg hquote, if_neg hread]

inductive Ends (delimiter : Delimiter) (quote : Quote) (hasText : Bool) :
    List Char → Walk (Option Found) → Prop
  | unterminated : Ends delimiter quote hasText [] { value := none }
  | lineBreak (rest : List Char) : Ends delimiter quote hasText ('\n' :: rest) { value := none }
  | obstacle {char : Char} (rest : List Char) (looked : Nat)
    (h : char = '\\' ∨ char = '\x7b' ∧ delimiter.isFormat = true) :
    Ends delimiter quote hasText (char :: rest)
      { value := text? hasText, moves := .mark :: List.replicate looked .consume }
  | content (rest : List Char) (looked : Nat) (h : hasText = true) :
    Ends delimiter quote hasText (closing delimiter quote.char ++ rest)
      { value := some .stringContent, moves := .mark :: List.replicate looked .consume }
  | close (rest : List Char) (h : hasText = false) :
    Ends delimiter quote hasText (closing delimiter quote.char ++ rest)
      { value := some .stringEnd, moves := closingMoves delimiter }

theorem ends_brace (hformat : delimiter.isFormat = true)
    (h : (units delimiter quote).Stops (!hasText) ('\x7b' :: rest)) :
    Ends delimiter quote hasText ('\x7b' :: rest)
      (scanText delimiter quote.char hasText ('\x7b' :: rest)) := by
  have hnext : rest.head? ≠ some '\x7b' := by
    intro hnext
    obtain ⟨more, rfl⟩ := List.head?_eq_some_iff.1 hnext
    exact h _ more rfl (.braces hformat)
  have hscan : scanText delimiter quote.char hasText ('\x7b' :: rest)
      = { value := text? hasText, moves := .mark :: List.replicate 1 .consume } := by
    rw [scanText.eq_def]
    cases rest with
    | nil => simp [hformat]
    | cons next rest =>
      have hne : next ≠ '\x7b' := by simpa using hnext
      simp [hformat, hne]
  rw [hscan]
  exact .obstacle rest 1 (.inr ⟨rfl, hformat⟩)

theorem ends_backslash (h : (units delimiter quote).Stops (!hasText) ('\\' :: rest)) :
    Ends delimiter quote hasText ('\\' :: rest)
      (scanText delimiter quote.char hasText ('\\' :: rest)) := by
  have hraw : delimiter.isRaw = false := by
    rw [← Bool.not_eq_true]
    intro hraw
    exact h _ rest rfl (.backslash hraw)
  cases hbytes : delimiter.isBytes with
  | false =>
    have hscan : scanText delimiter quote.char hasText ('\\' :: rest)
        = { value := text? hasText, moves := .mark :: List.replicate 0 .consume } := by
      rw [scanText.eq_def]
      simp [hraw, hbytes]
    rw [hscan]
    exact .obstacle rest 0 (.inl rfl)
  | true =>
    have hscan : scanText delimiter quote.char hasText ('\\' :: rest)
        = { value := text? hasText, moves := .mark :: List.replicate 1 .consume } := by
      rw [scanText.eq_def]
      cases rest with
      | nil => simp [hraw, hbytes]
      | cons next rest =>
        have hnext : next ∉ ['N', 'u', 'U'] := by
          intro hnext
          exact h _ rest rfl (.charName hraw hbytes hnext)
        simp [hraw, hbytes, namesChar, hnext]
    rw [hscan]
    exact .obstacle rest 1 (.inl rfl)

theorem scanText_closing_append (delimiter : Delimiter) (quote : Quote) (rest : List Char) :
    scanText delimiter quote.char false (closing delimiter quote.char ++ rest)
      =
    { value := some .stringEnd, moves := closingMoves delimiter } := by
  obtain ⟨hbrace, hbackslash, _⟩ := quote_ne quote
  rw [scanText.eq_def]
  cases htriple : delimiter.isTriple with
  | false => simp [hbrace, hbackslash, htriple, closing, closingMoves]
  | true => simp [hbrace, hbackslash, htriple, closing, closingMoves, List.replicate]

theorem exists_scanText_closing_append (delimiter : Delimiter) (quote : Quote) (rest : List Char) :
    ∃ looked, scanText delimiter quote.char true (closing delimiter quote.char ++ rest)
      =
    { value := some .stringContent, moves := .mark :: List.replicate looked .consume } := by
  obtain ⟨hbrace, hbackslash, _⟩ := quote_ne quote
  rw [scanText.eq_def]
  cases htriple : delimiter.isTriple with
  | false =>
    refine ⟨0, ?_⟩
    simp [hbrace, hbackslash, htriple, closing]
  | true =>
    refine ⟨2, ?_⟩
    simp [hbrace, hbackslash, htriple, closing, List.replicate]

theorem exists_closing_of_stops (h : (units delimiter quote).Stops isFirst (quote.char :: rest)) :
    ∃ more, quote.char :: rest = closing delimiter quote.char ++ more := by
  cases htriple : delimiter.isTriple with
  | false =>
    refine ⟨rest, ?_⟩
    simp [closing, htriple]
  | true =>
    have hsecond : rest.head? = some quote.char := by
      apply Classical.byContradiction
      intro hrest
      exact h (List.replicate 1 quote.char) rest rfl (.quotes htriple (.inl rfl) hrest)
    obtain ⟨rest, rfl⟩ := List.head?_eq_some_iff.1 hsecond
    have hthird : rest.head? = some quote.char := by
      apply Classical.byContradiction
      intro hrest
      exact h (List.replicate 2 quote.char) rest rfl (.quotes htriple (.inr rfl) hrest)
    obtain ⟨rest, rfl⟩ := List.head?_eq_some_iff.1 hthird
    refine ⟨rest, ?_⟩
    simp [closing, htriple, List.replicate]

theorem ends_quote (h : (units delimiter quote).Stops (!hasText) (quote.char :: rest)) :
    Ends delimiter quote hasText (quote.char :: rest)
      (scanText delimiter quote.char hasText (quote.char :: rest)) := by
  obtain ⟨more, hclosing⟩ := exists_closing_of_stops h
  rw [hclosing]
  cases htext : hasText with
  | false =>
    rw [scanText_closing_append]
    exact .close more rfl
  | true =>
    obtain ⟨looked, hscan⟩ := exists_scanText_closing_append delimiter quote more
    rw [hscan]
    exact .content more looked rfl

theorem ends_of_stops (h : (units delimiter quote).Stops (!hasText) chars) :
    Ends delimiter quote hasText chars (scanText delimiter quote.char hasText chars) := by
  cases chars with
  | nil => exact .unterminated
  | cons char rest =>
    by_cases hbrace : char = '\x7b' ∧ delimiter.isFormat = true
    . obtain ⟨rfl, hformat⟩ := hbrace
      apply ends_brace hformat h
    . by_cases hbackslash : char = '\\'
      . subst hbackslash
        apply ends_backslash h
      . by_cases hquote : char = quote.char
        . subst hquote
          apply ends_quote h
        . have hline : ¬ (char = '\n' → delimiter.isTriple = true ∨ (!hasText) = true) := by
            intro hline
            exact h _ rest rfl (.char hquote hbackslash hbrace hline)
          simp only [Classical.not_imp, not_or, Bool.not_eq_true, Bool.not_eq_false'] at hline
          obtain ⟨rfl, htriple, htext⟩ := hline
          have hscan : scanText delimiter quote.char hasText ('\n' :: rest) = { value := none } := by
            rw [scanText.eq_def]
            dsimp only
            rw [if_neg hbrace, if_neg hbackslash, if_neg hquote, if_pos]
            simp [htext, htriple]
          rw [hscan]
          exact .lineBreak rest

theorem exists_scanText_of_run {segments : List (List Char)}
    (h : (units delimiter quote).Run isFirst segments rest) :
    ∃ moves walk, scanText delimiter quote.char (!isFirst) ((units delimiter quote).text segments ++ rest)
        = walk.after moves ∧
      Move.passed moves = ((units delimiter quote).text segments).length ∧
      (∀ move ∈ moves, move ≠ .skip) ∧
      Ends delimiter quote (!(isFirst && segments.isEmpty)) rest walk := by
  -- A unit in front means that there is some text, so the flag changes with the induction
  induction h with
  | @stop isFirst rest hstops =>
    refine ⟨[], _, rfl, rfl, by simp, ?_⟩
    rw [List.isEmpty_nil, Bool.and_true]
    apply ends_of_stops
    rw [Bool.not_not]
    exact hstops
  | @next isFirst unit segments rest hunit _ ih =>
    obtain ⟨moves, walk, hscan, hpassed, hskip, hends⟩ := ih
    have hunit : IsUnit delimiter quote (!!isFirst) unit
        ((units delimiter quote).text segments ++ rest) := by
      rw [Bool.not_not]
      exact hunit
    obtain ⟨before, hbefore, hunitPassed, hunitSkip⟩ := scanText_unit_append hunit
    refine ⟨before ++ moves, walk, ?_, ?_, ?_, ?_⟩
    . rw [Bool.not_false] at hscan
      rw [Segmentation.text_cons, List.append_assoc]
      apply hbefore.trans
      rw [hscan]
      simp [Walk.after]
    . rw [Move.passed_append, hunitPassed, hpassed, Segmentation.text_cons, List.length_append]
      rfl
    . simp only [List.mem_append]
      rintro move (hmem | hmem)
      . exact hunitSkip move hmem
      . exact hskip move hmem
    . simpa using hends

inductive Answers (delimiter : Delimiter) (quote : Quote) (segments : List (List Char)) :
    (rest : List Char) → Option Answer → Prop
  | unterminated : Answers delimiter quote segments [] none
  | lineBreak (rest : List Char) : Answers delimiter quote segments ('\n' :: rest) none
  | obstacle {char : Char} (rest : List Char)
    (h : char = '\\' ∨ char = '\x7b' ∧ delimiter.isFormat = true) :
    Answers delimiter quote segments (char :: rest)
      (if segments = [] then
        none
      else
        some ⟨.stringContent, .keep, 0, ((units delimiter quote).text segments).length⟩)
  | closing (rest : List Char) :
    Answers delimiter quote segments (closing delimiter quote.char ++ rest)
      (some
        (if segments = [] then
          ⟨.stringEnd, .closeLiteral delimiter, 0, (closing delimiter quote.char).length⟩
        else
          ⟨.stringContent, .keep, 0, ((units delimiter quote).text segments).length⟩))

variable {state : State} {segments : List (List Char)} {walk : Walk (Option Found)}

theorem Ends.exists_answer_nil (hopen : state.delimiter? = some delimiter)
    (h : Ends delimiter quote false rest walk) :
    ∃ answer?, Answers delimiter quote [] rest answer? ∧ walk.Yields state rest answer? := by
  cases h with
  | unterminated => exact ⟨_, .unterminated, .declined rfl⟩
  | lineBreak rest => exact ⟨_, .lineBreak rest, .declined rfl⟩
  | obstacle rest looked h => exact ⟨_, .obstacle rest h, .declined rfl⟩
  | content rest looked h => contradiction
  | close rest =>
    refine ⟨_, .closing rest, ?_⟩
    have hchange : state.change .stringEnd = .closeLiteral delimiter := by
      rw [State.change, hopen]
      rfl
    obtain ⟨hstart, hstop⟩ := @follow_closingMoves delimiter quote.char rest
    rw [if_pos rfl, ← hchange]
    apply @Walk.Yields.found state _ _ .stringEnd _ _ rfl hstop
    rw [hstart, Nat.zero_min]

theorem yields_content {moves : List Move} (looked : Nat) (hpassed : Move.passed moves ≤ chars.length)
    (hskip : ∀ move ∈ moves, move ≠ .skip) :
    Walk.Yields state chars
      { value := some .stringContent, moves := moves ++ .mark :: List.replicate looked .consume }
      (some ⟨.stringContent, .keep, 0, Move.passed moves⟩) := by
  have hfollow := (Reader.follow { rest := chars : Track } moves).mark
    |>.follow_replicate_consume_mark? looked
  have hstart : (Reader.follow { rest := chars : Track } moves).start = 0 :=
    Track.start_follow hskip
  have hlast : (Reader.follow { rest := chars : Track } moves).passed = Move.passed moves := by
    rw [Track.passed_follow hpassed, Nat.zero_add]
  apply @Walk.Yields.found state _ _ .stringContent _ _ rfl
  . rw [Reader.follow_append, Track.follow_mark, hfollow.2, Track.mark, hlast]
  . rw [Reader.follow_append, Track.follow_mark, hfollow.1, Track.mark, hstart, Nat.zero_min]

theorem Ends.exists_answer {moves : List Move} (hne : segments ≠ [])
    (hpassed : Move.passed moves = ((units delimiter quote).text segments).length)
    (hskip : ∀ move ∈ moves, move ≠ .skip) (h : Ends delimiter quote true rest walk) :
    ∃ answer?, Answers delimiter quote segments rest answer? ∧
      (walk.after moves).Yields state ((units delimiter quote).text segments ++ rest) answer? := by
  have hle : Move.passed moves ≤ ((units delimiter quote).text segments ++ rest).length := by
    rw [hpassed, List.length_append]
    apply Nat.le_add_right
  cases h with
  | unterminated => exact ⟨_, .unterminated, .declined rfl⟩
  | lineBreak rest => exact ⟨_, .lineBreak rest, .declined rfl⟩
  | obstacle rest looked h =>
    refine ⟨_, .obstacle rest h, ?_⟩
    rw [if_neg hne, ← hpassed]
    exact yields_content looked hle hskip
  | content rest looked =>
    refine ⟨_, .closing rest, ?_⟩
    rw [if_neg hne, ← hpassed]
    exact yields_content looked hle hskip
  | close => contradiction

theorem exists_answer_of_splits (hopen : state.delimiter? = some delimiter)
    (h : (units delimiter quote).Splits chars segments rest) :
    ∃ answer?, Answers delimiter quote segments rest answer? ∧
      (scanText delimiter quote.char false chars).Yields state chars answer? := by
  obtain ⟨rfl, hrun⟩ := h
  cases segments with
  | nil => exact (ends_of_stops hrun.stops).exists_answer_nil hopen
  | cons unit segments =>
    obtain ⟨moves, walk, hscan, hpassed, hskip, hends⟩ := exists_scanText_of_run hrun
    rw [Bool.not_true] at hscan
    rw [hscan]
    exact hends.exists_answer (by simp) hpassed hskip

end Literal

namespace Scanner

variable {scanner : Scanner} {valid : TokenSet} {delimiter : Delimiter} {quote : Quote}

theorem gives_within_literal (hcontent : .stringContent ∈ valid) (hindent : .indent ∉ valid)
    (hopen : scanner.state.delimiter? = some delimiter) (hquote : delimiter.quote? = some quote)
    (source : List UInt8) (offset : Nat) :
    let reader := ByteReader.ofBytes source offset
    let units := Literal.units delimiter quote
    ∃ segments rest answer?,
      units.Splits (Reader.ahead reader) segments rest ∧
      (∀ others more, units.Splits (Reader.ahead reader) others more →
        others = segments ∧ more = rest) ∧
      Literal.Answers delimiter quote segments rest answer? ∧
      scanner.Gives reader valid answer? := by
  intro reader units
  obtain ⟨segments, rest, hsplits, hunique⟩ := units.exists_splits (Reader.ahead reader)
  obtain ⟨answer?, hanswers, hyields⟩ := Literal.exists_answer_of_splits hopen hsplits
  have hliteral : scanner.state.literal? valid = some delimiter := by
    rw [State.literal?, if_pos ⟨hcontent, hindent⟩, hopen]
  have hwalk : scanner.walk valid (Reader.ahead reader)
      = Literal.scanText delimiter quote.char false (Reader.ahead reader) := by
    rw [walk, State.scan_of_literal?_eq_some hliteral, Literal.scanContent, hquote]
  rw [← hwalk] at hyields
  exact ⟨segments, rest, answer?, hsplits, hunique, hanswers, gives_of_yields hyields⟩

theorem gives_within_literal_three_braces :
    let scanner : Scanner := { state := { delimiters := #[⟨0x11⟩] } }
    let valid : TokenSet := .ofList [.stringContent, .stringEnd]
    let source : List UInt8 := Utf8.encode ['\x7b', '\x7b', '\x7b', 'x']
    .stringContent ∈ valid ∧ .indent ∉ valid ∧ scanner.state.delimiter? = some ⟨0x11⟩ ∧
      Delimiter.quote? ⟨0x11⟩ = some .single ∧
      scanner.Gives (.ofBytes source 0) valid (some ⟨.stringContent, .keep, 0, 2⟩) := by
  intro scanner valid source
  have hcontent : .stringContent ∈ valid := by
    decide
  have hindent : .indent ∉ valid := by
    decide
  have hopen : scanner.state.delimiter? = some ⟨0x11⟩ := by
    decide
  have hquote : Delimiter.quote? ⟨0x11⟩ = some .single := by
    decide
  have hstops : (Literal.units ⟨0x11⟩ .single).Stops false ['\x7b', 'x'] := by
    intro unit rest heq hunit
    cases hunit with
    | braces => simp [Literal.units] at heq
    | backslash => simp [Literal.units] at heq
    | charName => simp [Literal.units] at heq
    | quotes htriple => exact absurd htriple (by decide)
    | char _ _ hbrace =>
      obtain ⟨hchar, _⟩ := List.cons.inj heq
      exact hbrace ⟨hchar.symm, rfl⟩
  have hsplits : (Literal.units ⟨0x11⟩ .single).Splits (Reader.ahead (ByteReader.ofBytes source 0))
      [['\x7b', '\x7b']] ['\x7b', 'x'] := by
    constructor
    . decide
    . exact .next (.braces rfl) (.stop hstops)
  obtain ⟨segments, rest, answer?, _, hunique, hanswers, hgives⟩ :=
    gives_within_literal hcontent hindent hopen hquote source 0
  obtain ⟨rfl, rfl⟩ := hunique _ _ hsplits
  cases hanswers with
  | obstacle => exact ⟨hcontent, hindent, hopen, hquote, hgives⟩

end Scanner

end Offside
