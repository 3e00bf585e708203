import Offside.Proofs.Reading.Boundaries
import Offside.Proofs.Scanning.Body

/-!
This module contains the proof that the start of a literal is found exactly where some letters and a
quote are ahead, and that the delimiter says of them all that counts for the rest of the literal.
-/

namespace Offside

theorem Quote.ofChar?_eq_none_iff {char : Char} :
    ofChar? char = none ↔ ∀ quote : Quote, char ≠ quote.char := by
  simp only [Option.eq_none_iff_forall_ne_some, Ne, ofChar?_eq_some_iff]

namespace Delimiter

structure Records (delimiter : Delimiter) (letters : List Char) (quote : Quote) (isTriple : Prop) :
    Prop where
  isRaw_iff : delimiter.isRaw = true ↔ 'r' ∈ letters ∨ 'R' ∈ letters
  isFormat_iff : delimiter.isFormat = true ↔ 'f' ∈ letters ∨ 'F' ∈ letters
  isBytes_iff : delimiter.isBytes = true ↔ 'b' ∈ letters ∨ 'B' ∈ letters
  isTriple_iff : delimiter.isTriple = true ↔ isTriple
  has_flag_iff : ∀ other : Quote, delimiter.has other.flag = true ↔ other = quote
  unused_eq_false : delimiter.has unused = false
  ofBits?_bits : ofBits? delimiter.bits = some delimiter

theorem mem_quotes {delimiter : Delimiter} {quote : Quote} :
    quote ∈ delimiter.quotes ↔ delimiter.has quote.flag = true := by
  rw [quotes, List.mem_filter]
  cases quote <;> simp [Quote.all]

end Delimiter

namespace Literal

def AreLetters (letters : List Char) : Prop :=
  ∀ letter ∈ letters, letter ∈ ['f', 'F', 'r', 'R', 'b', 'B', 'u', 'U']

theorem isLetter_iff {char : Char} :
    isLetter char = true ↔ char ∈ ['f', 'F', 'r', 'R', 'b', 'B', 'u', 'U'] := by
  unfold isLetter Delimiter.letterFlag?
  split <;> simp_all

theorem areLetters_iff {letters : List Char} :
    AreLetters letters ↔ ∀ letter ∈ letters, isLetter letter = true := by
  simp only [AreLetters, isLetter_iff]

instance (letters : List Char) : Decidable (AreLetters letters) :=
  decidable_of_iff (letters.all isLetter = true) (by rw [List.all_eq_true, areLetters_iff])

theorem not_areLetters_singleton_iff {char : Char} :
    ¬ AreLetters [char] ↔ isLetter char = false := by
  rw [areLetters_iff, List.forall_mem_singleton, Bool.not_eq_true]

theorem any_eq_or_eq {letters : List Char} (lower upper : Char) :
    (letters.any fun letter => letter == lower || letter == upper) = true
      ↔
    lower ∈ letters ∨ upper ∈ letters := by
  simp only [List.any_eq_true, Bool.or_eq_true, beq_iff_eq]
  constructor
  . rintro ⟨letter, hmem, rfl | rfl⟩
    . exact .inl hmem
    . exact .inr hmem
  . rintro (hmem | hmem)
    . exact ⟨lower, hmem, .inl rfl⟩
    . exact ⟨upper, hmem, .inr rfl⟩

namespace Opening

theorem records_delimiter (opening : Opening) :
    opening.delimiter.Records opening.letters opening.quote (opening.isTriple = true) where
  isRaw_iff := by
    rw [isRaw_delimiter]
    apply any_eq_or_eq
  isFormat_iff := by
    rw [isFormat_delimiter]
    apply any_eq_or_eq
  isBytes_iff := by
    rw [isBytes_delimiter]
    apply any_eq_or_eq
  isTriple_iff := by
    rw [isTriple_delimiter]
  has_flag_iff := by
    intro other
    rw [← Delimiter.mem_quotes, delimiter, Delimiter.quotes_ofParts, List.mem_singleton]
  unused_eq_false := opening.wellFormed_delimiter.unused_eq_false
  ofBits?_bits := Delimiter.ofBits?_bits opening.wellFormed_delimiter

end Opening

theorem length_takeWhile_quote (quote : Quote) (more : List Char) :
    ((quote.char :: more).takeWhile (· = quote.char)).length
      =
    (more.takeWhile (· = quote.char)).length + 1 := by
  rw [List.takeWhile_cons_of_pos (by simp), List.length_cons]

variable {letters : List Char}

theorem isTriple_ofFront (h : ∀ letter ∈ letters, isLetter letter = true) (quote : Quote)
    (more : List Char) :
    (Opening.ofFront h quote more).isTriple = true ↔
      3 ≤ ((quote.char :: more).takeWhile (· = quote.char)).length := by
  rw [length_takeWhile_quote, Opening.ofFront, decide_eq_true_iff]
  omega

theorem length_text_ofFront (h : ∀ letter ∈ letters, isLetter letter = true) (quote : Quote)
    (more : List Char) :
    (Opening.ofFront h quote more).text.length
      =
    letters.length +
      if 3 ≤ ((quote.char :: more).takeWhile (· = quote.char)).length then 3 else 1 := by
  rw [Opening.text, List.length_append, Opening.quotes, List.length_replicate]
  simp only [isTriple_ofFront]
  rfl

theorem Opening.passed_moves (opening : Opening) :
    Move.passed opening.moves = opening.text.length := by
  rw [length_text, moves]
  cases opening.isTriple <;> simp

theorem passed_moves_scanStart (h : ∀ letter ∈ letters, isLetter letter = true) (quote : Quote)
    (more : List Char) :
    Move.passed (scanStart (letters ++ quote.char :: more)).moves
      =
    letters.length + min ((quote.char :: more).takeWhile (· = quote.char)).length 3 := by
  rw [scanStart_append_quote h, Move.passed_append, Opening.passed_moves, length_text_ofFront,
    Move.passed_replicate (by simp), length_takeWhile_quote]
  split <;> split <;> omega

theorem exists_append_quotes (quote : Quote) (more : List Char) {count : Nat}
    (h : count ≤ ((quote.char :: more).takeWhile (· = quote.char)).length) :
    ∃ after, letters ++ quote.char :: more
      = letters ++ List.replicate count quote.char ++ after := by
  obtain ⟨after, hafter⟩ := exists_replicate_append quote.char (quote.char :: more)
  obtain ⟨others, hothers⟩ := Nat.exists_eq_add_of_le h
  rw [hothers, ← List.replicate_append_replicate, List.append_assoc] at hafter
  exact ⟨List.replicate others quote.char ++ after, by rw [hafter, List.append_assoc]⟩

theorem isPlain_of_mem_start (h : ∀ letter ∈ letters, isLetter letter = true)
    {quote : Quote} {count : Nat} :
    ∀ char ∈ letters ++ List.replicate count quote.char, Utf8.IsPlain char := by
  intro char hmem
  cases List.mem_append.1 hmem with
  | inl hletter =>
    have hplain : ['f', 'F', 'r', 'R', 'b', 'B', 'u', 'U'].all (Utf8.IsPlain ·) = true := by
      decide
    exact Utf8.isPlain_of_all hplain char (isLetter_iff.1 (h char hletter))
  | inr hquote =>
    rw [(List.mem_replicate.1 hquote).2]
    cases quote <;> decide

theorem mem_events_scanStart_iff {chars : List Char} :
    .lettersWithoutQuote ∈ (scanStart chars).events ↔
      ∃ letters char more, letters ≠ [] ∧ AreLetters letters ∧ ¬ AreLetters [char] ∧
        (∀ quote : Quote, char ≠ quote.char) ∧ chars = letters ++ char :: more := by
  constructor
  . intro h
    cases front chars with
    | letters hletters => simp [scanStart_of_letters hletters] at h
    | quote hletters quote more => simp [scanStart_append_quote hletters] at h
    | @char letters hletters char hletter hquote more =>
      refine ⟨letters, char, more, ?_, areLetters_iff.2 hletters, not_areLetters_singleton_iff.2 hletter,
        Quote.ofChar?_eq_none_iff.1 hquote, rfl⟩
      rintro rfl
      rw [scanStart_append_char hletters hletter hquote] at h
      exact List.not_mem_nil h
  . rintro ⟨letters, char, more, hne, hletters, hletter, hquote, rfl⟩
    rw [areLetters_iff] at hletters
    rw [not_areLetters_singleton_iff] at hletter
    rw [scanStart_append_char hletters hletter (Quote.ofChar?_eq_none_iff.2 hquote)]
    simp [hne]

end Literal

namespace Scanner

/--
A scan that reads from `reader` passes some blanks and then looks for a literal in what is ahead there:
it does not read on in a literal, there is no comment among the blanks, they end no line that a token
stands for, and a literal is asked for.
-/
structure Reaches (scanner : Scanner) (reader : ByteReader) (valid : TokenSet) (before rest : List Char) :
    Prop where
  ahead_eq : Reader.ahead reader = before ++ rest
  literal?_eq_none : scanner.state.literal? valid = none
  exists_blanks : ∃ blanks : Blanks,
    (Blanks.skip scanner.options.tabWidth false {} (Reader.ahead reader)).value = some (blanks, rest) ∧
      blanks.comment? = none ∧
      (blanks.crossedLine = true → Layout.line? scanner.state.indents.top valid blanks = none)
  stringStart_mem : .stringStart ∈ valid

variable {scanner : Scanner} {reader : ByteReader} {valid : TokenSet} {before rest : List Char}

theorem Reaches.walk_eq (h : scanner.Reaches reader valid before rest) :
    scanner.walk valid (Reader.ahead reader)
      =
    (Literal.scanStart rest).after
      (.mark :: (Blanks.skip scanner.options.tabWidth false {} (Reader.ahead reader)).moves) := by
  obtain ⟨blanks, hskip, hcomment, hline⟩ := h.exists_blanks
  have hnone : (if blanks.crossedLine then Layout.line? scanner.state.indents.top valid blanks else none)
      = none := by
    split
    . next hcrossed => exact hline hcrossed
    . rfl
  rw [walk, State.scan_of_literal?_eq_none h.literal?_eq_none, Layout.scan, hskip]
  dsimp only
  rw [hnone]
  dsimp only
  rw [if_pos ⟨Option.isNone_iff_eq_none.2 hcomment, h.stringStart_mem⟩]

theorem Reaches.moves_eq (h : scanner.Reaches reader valid before rest) (hrest : rest ≠ []) :
    (scanner.walk valid (Reader.ahead reader)).moves
      =
    .mark :: List.replicate before.length .skip ++ (Literal.scanStart rest).moves := by
  obtain ⟨blanks, hskip, _, _⟩ := h.exists_blanks
  rw [h.walk_eq, Walk.moves_after, Blanks.moves_skip_eq,
    Blanks.length_moves_skip h.ahead_eq hskip hrest]

structure Opens (scanner : Scanner) (source : List UInt8) (scanned : Logged (Scanned ByteReader))
    (start : Nat) (letters : List Char) (quote : Quote) (count : Nat) : Prop where
  events : scanned.events = [.scanned .stringStart]
  outcome : scanned.value.outcome = scanned.value.scanner.report (some .stringStart)
  token : scanned.value.reader.token .stringStart
    = ⟨.stringStart, start, start + (letters.length + if 3 ≤ count then 3 else 1)⟩
  covers : Utf8.encode (letters ++ List.replicate (if 3 ≤ count then 3 else 1) quote.char)
    <+: source.drop start
  position : scanned.value.reader.position = start + (letters.length + min count 3)
  scanner : ∃ delimiter : Delimiter, delimiter.Records letters quote (3 ≤ count) ∧
    scanned.value.scanner = scanner.withState (scanner.state.pushDelimiter delimiter)

structure Declines (scanner : Scanner) (scanned : Logged (Scanned ByteReader)) : Prop where
  told : scanned.events.getLast? = some .declined
  outcome : scanned.value.outcome = scanned.value.scanner.report none
  scanner : scanned.value.scanner = scanner

theorem Reaches.events_eq (h : scanner.Reaches reader valid before rest) :
    (scanner.scan reader valid).events
      =
    (Literal.scanStart rest).events ++
      [((Literal.scanStart rest).value.map Found.kind).elim .declined .scanned] := by
  rw [events_scan, h.walk_eq]
  rfl

theorem Reaches.scanner_eq (h : scanner.Reaches reader valid before rest) :
    (scanner.scan reader valid).value.scanner
      =
    scanner.withState ((Literal.scanStart rest).value.elim scanner.state scanner.state.apply) := by
  have hstate := state_scan scanner reader valid
  rw [h.walk_eq, Walk.value_after] at hstate
  exact congrArg (Scanner.mk scanner.options) hstate

theorem Reaches.declines (h : scanner.Reaches reader valid before rest)
    (hvalue : (Literal.scanStart rest).value = none) :
    scanner.Declines (scanner.scan reader valid) where
  told := by
    rw [getLast?_events_scan, h.walk_eq, Walk.value_after, hvalue]
    rfl
  outcome := by
    rw [outcome_scan_eq_report, h.walk_eq, Walk.value_after, hvalue]
    rfl
  scanner := by
    rw [h.scanner_eq, hvalue]
    rfl

variable {source : List UInt8} {offset : Nat}

theorem Reaches.gives {letters : List Char} {quote : Quote} {more : List Char}
    (hletters : ∀ letter ∈ letters, Literal.isLetter letter = true)
    (h : scanner.Reaches (.ofBytes source offset) valid before (letters ++ quote.char :: more)) :
    scanner.Gives (.ofBytes source offset) valid
      (some
        ⟨.stringStart, .openLiteral (Literal.Opening.ofFront hletters quote more).delimiter,
          before.length, before.length + (Literal.Opening.ofFront hletters quote more).text.length⟩) := by
  obtain ⟨after, hahead⟩ := Literal.Opening.exists_isAhead hletters quote more
  have hscan := Literal.scanStart_append_quote hletters quote more
  apply gives_of_yields
  apply Layout.yields_literal
  . exact (congrArg Walk.value h.walk_eq).trans (congrArg Walk.value hscan)
  . refine (h.moves_eq (by simp)).trans ?_
    rw [hscan]
  . exact (congrArg (List.drop before.length) h.ahead_eq).trans
      (List.drop_left.trans hahead.eq_append)

theorem Reaches.offsetBehind_eq {letters : List Char} {quote : Quote} {more : List Char} {taken : Nat}
    (hletters : ∀ letter ∈ letters, Literal.isLetter letter = true)
    (h : scanner.Reaches (.ofBytes source offset) valid before (letters ++ quote.char :: more))
    (htaken : taken ≤ ((quote.char :: more).takeWhile (· = quote.char)).length) :
    let start := (ByteReader.ofBytes source offset).offsetBehind before.length
    (ByteReader.ofBytes source offset).offsetBehind (before.length + (letters.length + taken))
        = start + (letters.length + taken) ∧
      Utf8.encode (letters ++ List.replicate taken quote.char) <+: source.drop start := by
  obtain ⟨after, hafter⟩ := @Literal.exists_append_quotes letters quote more taken htaken
  have hplain := @Literal.isPlain_of_mem_start letters hletters quote taken
  have hahead := h.ahead_eq
  rw [hafter] at hahead
  have hoffset := ByteReader.offsetBehind_add_of_isPlain hahead hplain
  rw [List.length_append, List.length_replicate] at hoffset
  exact ⟨hoffset, ByteReader.isPrefix_drop_offsetBehind hahead hplain⟩

theorem Reaches.passed_eq {letters : List Char} {quote : Quote} {more : List Char}
    (hletters : ∀ letter ∈ letters, Literal.isLetter letter = true)
    (h : scanner.Reaches reader valid before (letters ++ quote.char :: more)) :
    Move.passed (scanner.walk valid (Reader.ahead reader)).moves
      =
    before.length +
      (letters.length + min ((quote.char :: more).takeWhile (· = quote.char)).length 3) := by
  rw [h.moves_eq (by simp), Move.passed_append, Literal.passed_moves_scanStart hletters,
    Move.passed_cons_mark, Move.passed_replicate (by simp)]

theorem Reaches.opens {letters : List Char} {quote : Quote} {more : List Char}
    (hletters : ∀ letter ∈ letters, Literal.isLetter letter = true)
    (h : scanner.Reaches (.ofBytes source offset) valid before (letters ++ quote.char :: more)) :
    scanner.Opens source (scanner.scan (ByteReader.ofBytes source offset) valid)
      ((ByteReader.ofBytes source offset).offsetBehind before.length) letters quote
      ((quote.char :: more).takeWhile (· = quote.char)).length := by
  let reader := ByteReader.ofBytes source offset
  let opening := Literal.Opening.ofFront hletters quote more
  let count := ((quote.char :: more).takeWhile (· = quote.char)).length
  have hscan := Literal.scanStart_append_quote hletters quote more
  have hgives := h.gives hletters
  rw [Literal.length_text_ofFront] at hgives
  have htaken : (if 3 ≤ count then 3 else 1) ≤ count := by
    have hcount : count = _ := Literal.length_takeWhile_quote quote more
    split <;> omega
  obtain ⟨hstop, hcovers⟩ := h.offsetBehind_eq hletters htaken
  exact
    {
      events := by
        rw [h.events_eq, hscan]
        rfl
      outcome := hgives.outcome
      token := by
        have htoken := hgives.token _ rfl
        dsimp only at htoken
        rw [hstop] at htoken
        exact htoken
      covers := hcovers
      position := by
        have hposition := ByteReader.position_follow reader.rest reader.position
          (scanner.walk valid (Reader.ahead reader)).moves
        rw [h.passed_eq hletters] at hposition
        exact hposition.trans (h.offsetBehind_eq hletters (Nat.min_le_left count 3)).1
      scanner := by
        refine ⟨opening.delimiter, ?_, ?_⟩
        . have hrecords := opening.records_delimiter
          rw [Literal.isTriple_ofFront] at hrecords
          exact hrecords
        . rw [h.scanner_eq, hscan]
          rfl
    }

theorem scan_lexeme (h : scanner.Reaches (.ofBytes source offset) valid before rest) :
    let reader := ByteReader.ofBytes source offset
    let scanned := scanner.scan reader valid
    let start := reader.offsetBehind before.length
    (scanned.events.getLast? = some (.scanned .stringStart) ↔
      ∃ letters quote more, Literal.AreLetters letters ∧ rest = letters ++ Quote.char quote :: more) ∧
    (∀ letters quote more, Literal.AreLetters letters → rest = letters ++ Quote.char quote :: more →
      scanner.Opens source scanned start letters quote
        ((Quote.char quote :: more).takeWhile (· = quote.char)).length) ∧
    ((∀ letters quote more, Literal.AreLetters letters → rest ≠ letters ++ Quote.char quote :: more) →
      scanner.Declines scanned) ∧
    (.lettersWithoutQuote ∈ scanned.events ↔
      ∃ letters char more, letters ≠ [] ∧ Literal.AreLetters letters ∧ ¬ Literal.AreLetters [char] ∧
        (∀ quote : Quote, char ≠ quote.char) ∧ rest = letters ++ char :: more) := by
  intro reader scanned start
  have hopens (letters : List Char) (quote : Quote) (more : List Char)
      (hletters : Literal.AreLetters letters) (hrest : rest = letters ++ Quote.char quote :: more) :
      scanner.Opens source scanned start letters quote
        ((Quote.char quote :: more).takeWhile (· = quote.char)).length := by
    subst hrest
    exact h.opens (Literal.areLetters_iff.1 hletters)
  have hdeclines (hnone : ∀ letters quote more, Literal.AreLetters letters →
      rest ≠ letters ++ Quote.char quote :: more) : scanner.Declines scanned := by
    apply h.declines
    cases hfront : Literal.front rest with
    | letters hletters => rw [Literal.scanStart_of_letters hletters]
    | quote hletters quote more =>
      exact absurd rfl (hnone _ quote more (Literal.areLetters_iff.2 hletters))
    | char hletters hletter hquote more =>
      rw [Literal.scanStart_append_char hletters hletter hquote]
  refine ⟨⟨?_, ?_⟩, hopens, hdeclines, ?_⟩
  . intro htold
    apply Classical.byContradiction
    intro hnone
    simp only [not_exists, not_and] at hnone
    rw [(hdeclines hnone).told] at htold
    contradiction
  . rintro ⟨letters, quote, more, hletters, hrest⟩
    rw [(hopens letters quote more hletters hrest).events]
    rfl
  . rw [← Literal.mem_events_scanStart_iff]
    have hevents : scanned.events = _ := h.events_eq
    rw [hevents, List.mem_append, or_iff_left]
    cases (Literal.scanStart rest).value <;> simp

theorem scan_lexeme_two_quotes :
    let scanner : Scanner := {}
    let valid : TokenSet := .ofList [.newline, .stringStart]
    let source := Utf8.encode [' ', 'R', 'b', '\x27', '\x27', 'x']
    let scanned := scanner.scan (ByteReader.ofBytes source 0) valid
    scanner.Reaches (.ofBytes source 0) valid [' '] ['R', 'b', '\x27', '\x27', 'x'] ∧
      scanner.Opens source scanned 1 ['R', 'b'] .single 2 ∧
      scanned.value.reader.token .stringStart = ⟨.stringStart, 1, 4⟩ := by
  intro scanner valid source scanned
  have hreaches : scanner.Reaches (.ofBytes source 0) valid [' '] ['R', 'b', '\x27', '\x27', 'x'] :=
    {
      ahead_eq := by decide +kernel
      literal?_eq_none := by decide +kernel
      exists_blanks := by
        refine ⟨{ width := 1 }, ?_, rfl, by simp⟩
        decide +kernel
      stringStart_mem := by decide
    }
  have hopens := (scan_lexeme hreaches).2.1 ['R', 'b'] .single ['\x27', 'x'] (by decide) rfl
  have hstart : (ByteReader.ofBytes source 0).offsetBehind 1 = 1 := by
    decide +kernel
  replace hopens : scanner.Opens source scanned
      ((ByteReader.ofBytes source 0).offsetBehind 1) ['R', 'b'] .single 2 := hopens
  rw [hstart] at hopens
  exact ⟨hreaches, hopens, hopens.token⟩

end Scanner

end Offside
