import Offside.Proofs.Scanning.WellFormed

/-!
This module contains the proof that the tokens of any run of a scanner bracket properly, and that the
texts of those that are still open tell its state.
-/

namespace Offside

namespace Literal

def isQuote (char : Char) : Bool :=
  (Quote.ofChar? char).isSome

def quoteRun (text : String) : String :=
  .ofList (text.toList.reverse.takeWhile isQuote).reverse

def openingBits (text : String) : UInt8 :=
  (Delimiter.ofParts
    (text.toList.any isRawLetter)
    (text.toList.any isFormatLetter)
    ((quoteRun text).length == 3)
    (text.toList.any isBytesLetter)
    ((quoteRun text).toList.head?.bind Quote.ofChar?)).bits

theorem isQuote_eq_false {letter : Char} (h : isLetter letter = true) : isQuote letter = false := by
  unfold isQuote
  cases hquote : Quote.ofChar? letter with
  | none => rfl
  | some quote =>
    rw [Quote.ofChar?_eq_some_iff.1 hquote, isLetter_char] at h
    contradiction

namespace Opening

variable (opening : Opening)

theorem quoteRun_text : quoteRun (.ofList opening.text) = .ofList opening.quotes := by
  have hletters : opening.letters.reverse.takeWhile isQuote = [] := by
    cases hreverse : opening.letters.reverse with
    | nil => rfl
    | cons letter letters =>
      have hmem : letter ∈ opening.letters := by
        rw [← List.mem_reverse, hreverse]
        simp
      rw [List.takeWhile_cons_of_neg]
      simp [isQuote_eq_false (opening.isLetter letter hmem)]
  have hquotes : ∀ char ∈ opening.quotes.reverse, isQuote char = true := by
    simp [quotes, isQuote]
  rw [quoteRun, String.toList_ofList, text, List.reverse_append,
    List.takeWhile_append_of_pos hquotes, hletters, List.append_nil, List.reverse_reverse]

theorem any_text {isLetter : Char → Bool} (h : isLetter opening.quote.char = false) :
    opening.text.any isLetter = opening.letters.any isLetter := by
  rw [text, List.any_append, quotes, List.any_replicate, h]
  simp

theorem openingBits_text : openingBits (.ofList opening.text) = opening.delimiter.bits := by
  have hraw : isRawLetter opening.quote.char = false := by
    cases opening.quote <;> decide
  have hformat : isFormatLetter opening.quote.char = false := by
    cases opening.quote <;> decide
  have hbytes : isBytesLetter opening.quote.char = false := by
    cases opening.quote <;> decide
  have htriple : (opening.quotes.length == 3) = opening.isTriple := by
    cases h : opening.isTriple <;> simp [quotes, h]
  have hquote : opening.quotes.head?.bind Quote.ofChar? = some opening.quote := by
    cases h : opening.isTriple <;> simp [quotes, h, List.replicate]
  rw [openingBits, quoteRun_text, String.toList_ofList, String.toList_ofList, String.length_ofList,
    any_text _ hraw, any_text _ hformat, any_text _ hbytes, htriple, hquote, delimiter]

end Opening

end Literal

namespace Session

structure Block where
  around : UInt32
  margin : UInt32

structure Replay where
  literals : List String := []
  blocks : List Block := []

namespace Replay

/--
Replay a token, if it closes what was opened last and in the same way: the end of a literal repeats
the quotes of its start, and the end of a block leads back to the margin around it. The margins are
those before and after the scan of the token.
-/
def commit? (replay : Replay) (source : String) (token : Token) (earlier later : UInt32) :
    Option Replay :=
  match token.kind with
  | .newline | .stringContent => some replay
  | .indent => some { replay with blocks := ⟨earlier, later⟩ :: replay.blocks }
  | .dedent =>
    match replay.blocks with
    | [] => none
    | block :: blocks => if later = block.around then some { replay with blocks } else none
  | .stringStart =>
    (token.text? source).map fun text => { replay with literals := text :: replay.literals }
  | .stringEnd =>
    match replay.literals with
    | [] => none
    | opening :: literals =>
      if token.text? source = some (Literal.quoteRun opening) then
        some { replay with literals }
      else
        none

theorem commit?_dedent {replay : Replay} {source : String} {token : Token} {earlier later : UInt32}
    {block : Block} {blocks : List Block} (hkind : token.kind = .dedent)
    (hblocks : replay.blocks = block :: blocks) (hlater : later = block.around) :
    replay.commit? source token earlier later = some { replay with blocks } := by
  simp [commit?, hkind, hblocks, hlater]

theorem commit?_stringStart {replay : Replay} {source text : String} {token : Token}
    (earlier later : UInt32) (hkind : token.kind = .stringStart)
    (htext : token.text? source = some text) :
    replay.commit? source token earlier later
      =
    some { replay with literals := text :: replay.literals } := by
  simp [commit?, hkind, htext]

theorem commit?_stringEnd {replay : Replay} {source opening : String} {token : Token}
    {literals : List String} (earlier later : UInt32) (hkind : token.kind = .stringEnd)
    (hliterals : replay.literals = opening :: literals)
    (htext : token.text? source = some (Literal.quoteRun opening)) :
    replay.commit? source token earlier later = some { replay with literals } := by
  simp [commit?, hkind, hliterals, htext]

structure Describes (replay : Replay) (state : State) : Prop where
  literals : ∀ text ∈ replay.literals, ∃ opening : Literal.Opening, text = .ofList opening.text
  delimiters : state.delimiters.toList.map Delimiter.bits
    = (replay.literals.map Literal.openingBits).reverse
  indents : state.indents.toList = 0 :: (replay.blocks.map Block.margin).reverse

def innermost : List Block → UInt32
  | [] => 0
  | block :: _ => block.margin

def Nested : List Block → Prop
  | [] => True
  | block :: blocks => block.around = innermost blocks ∧ Nested blocks

structure Follows (openings : List Literal.Opening) (replay : Replay) (state : State) : Prop where
  literals : replay.literals = openings.map fun opening => .ofList opening.text
  delimiters : state.delimiters.toList = (openings.map Literal.Opening.delimiter).reverse
  indents : state.indents.toList = 0 :: (replay.blocks.map Block.margin).reverse
  nested : Nested replay.blocks

namespace Follows

variable {openings : List Literal.Opening} {replay : Replay} {state : State}

theorem initial : Follows [] {} {} where
  literals := rfl
  delimiters := rfl
  indents := rfl
  nested := trivial

theorem describes (h : Follows openings replay state) : replay.Describes state where
  literals := by
    intro text hmem
    rw [h.literals, List.mem_map] at hmem
    obtain ⟨opening, _, rfl⟩ := hmem
    exact ⟨opening, rfl⟩
  delimiters := by
    rw [h.delimiters, h.literals, List.map_reverse, List.map_map, List.map_map]
    simp [Function.comp_def, Literal.Opening.openingBits_text]
  indents := h.indents

theorem wellFormed (h : Follows openings replay state) : state.WellFormed := by
  intro delimiter hmem
  rw [← Array.mem_toList_iff, h.delimiters, List.mem_reverse, List.mem_map] at hmem
  obtain ⟨opening, _, rfl⟩ := hmem
  apply opening.wellFormed_delimiter

theorem top_eq (h : Follows openings replay state) : state.indents.top = innermost replay.blocks := by
  have htop := state.indents.getLast?_toList
  rw [h.indents] at htop
  cases hblocks : replay.blocks with
  | nil =>
    rw [hblocks] at htop
    simpa [innermost, eq_comm] using htop
  | cons block blocks =>
    rw [hblocks, List.map_cons, List.reverse_cons, ← List.cons_append, List.getLast?_concat,
      Option.some.injEq] at htop
    rw [innermost, htop]

theorem indent (h : Follows openings replay state) {level : UInt32}
    (hlevel : state.indents.top < level) :
    Follows openings { replay with blocks := ⟨state.indents.top, level⟩ :: replay.blocks }
      (state.apply (.indent level)) where
  literals := h.literals
  delimiters := h.delimiters
  indents := by
    rw [State.toList_indents_apply_indent hlevel, h.indents]
    simp
  nested := ⟨h.top_eq, h.nested⟩

theorem dedent (h : Follows openings replay state) {width : UInt32}
    (hwidth : width < state.indents.top) :
    ∃ block blocks, replay.blocks = block :: blocks ∧
      (state.apply .dedent).indents.top = block.around ∧
      Follows openings { replay with blocks } (state.apply .dedent) := by
  have hlist := State.toList_indents_apply_dedent hwidth
  rw [h.indents] at hlist
  cases hblocks : replay.blocks with
  | nil =>
    -- Without an open block there would be no margin left below the one that is popped
    have hlength := congrArg List.length hlist
    have hsize := (state.apply .dedent).indents.one_le_size
    rw [hblocks, List.length_append, Indentation.length_toList] at hlength
    simp at hlength
    omega
  | cons block blocks =>
    have hnested := h.nested
    rw [hblocks] at hnested hlist
    rw [List.map_cons, List.reverse_cons, ← List.cons_append] at hlist
    have hfollows : Follows openings { replay with blocks } (state.apply .dedent) :=
      {
        literals := h.literals
        delimiters := h.delimiters
        indents := (List.append_inj' hlist rfl).1.symm
        nested := hnested.2
      }
    exact ⟨block, blocks, rfl, hfollows.top_eq.trans hnested.1.symm, hfollows⟩

theorem stringStart (h : Follows openings replay state) (opening : Literal.Opening) :
    Follows (opening :: openings)
      { replay with literals := .ofList opening.text :: replay.literals }
      (state.apply (.stringStart opening.delimiter)) where
  literals := by rw [h.literals, List.map_cons]
  delimiters := by
    rw [State.apply, State.pushDelimiter, Array.toList_push, h.delimiters, List.map_cons,
      List.reverse_cons]
  indents := h.indents
  nested := h.nested

theorem stringEnd (h : Follows openings replay state) {delimiter : Delimiter}
    (hdelimiter : state.delimiter? = some delimiter) :
    ∃ opening outer, openings = opening :: outer ∧ delimiter = opening.delimiter ∧
      Follows outer { replay with literals := replay.literals.tail } (state.apply .stringEnd) := by
  have hlist := h.delimiters
  rw [State.delimiter?, ← Array.getLast?_toList, hlist] at hdelimiter
  cases openings with
  | nil => simp at hdelimiter
  | cons opening outer =>
    rw [List.map_cons, List.reverse_cons, List.getLast?_concat, Option.some.injEq] at hdelimiter
    refine ⟨opening, outer, rfl, hdelimiter.symm, ?_⟩
    exact
      {
        literals := by rw [h.literals, List.map_cons, List.tail_cons]
        delimiters := by
          rw [State.apply, State.popDelimiter, Array.toList_pop, hlist, List.map_cons,
            List.reverse_cons, List.dropLast_concat]
        indents := h.indents
        nested := h.nested
      }

end Follows

end Replay

structure Call where
  source : String
  offset : Nat
  valid : TokenSet

def Call.OnBoundary (call : Call) : Prop :=
  ∃ before after, call.source.toList = before ++ after ∧
    min call.offset (Utf8.encode call.source.toList).length = (Utf8.encode before).length

def replay? (replay : Replay) (scanner : Scanner) : List Call → Option (Replay × Scanner)
  | [] => some (replay, scanner)
  | call :: calls =>
    match (scanner.scanAt call.source call.offset call.valid).value with
    | (.error _, _) => none
    | (.ok none, next) => replay? replay next calls
    | (.ok (some token), next) =>
      let earlier := scanner.state.indents.top
      match replay.commit? call.source token earlier next.state.indents.top with
      | none => none
      | some replay => replay? replay next calls

theorem value_scanAt (scanner : Scanner) (source : String) (offset : Nat) (valid : TokenSet) :
    (scanner.scanAt source offset valid).value =
      let scanned := (scanner.scan (ByteReader.ofString source offset) valid).value
      (scanned.outcome.map (·.map scanned.reader.token), scanned.scanner) := rfl

theorem closing_delimiter {opening : Literal.Opening} {quote : Quote}
    (h : opening.delimiter.quote? = some quote) :
    Literal.closing opening.delimiter quote.char = opening.quotes := by
  obtain rfl := Option.some.inj (opening.quote?_delimiter.symm.trans h)
  exact opening.closing_eq_quotes

section Step

variable {openings : List Literal.Opening} {replay : Replay} {state : State} {source : String}
variable {valid : TokenSet} {before chars : List Char} {reader : ByteReader}

theorem text?_token_stringEnd {opening : Literal.Opening} {quote : Quote} {rest : List Char}
    (hsource : source.toList = before ++ chars) (hquote : opening.delimiter.quote? = some quote)
    (hchars : chars = Literal.closing opening.delimiter quote.char ++ rest)
    (htracks : ByteReader.Tracks (Utf8.pieces (Utf8.encode chars)) (Utf8.encode before).length reader
      (Reader.follow { rest := chars : Track } (Literal.closingMoves opening.delimiter))) :
    (reader.token .stringEnd).text? source = some (Literal.quoteRun (.ofList opening.text)) := by
  subst hchars
  obtain ⟨hstart, hmark⟩ := @Literal.follow_closingMoves opening.delimiter quote.char rest
  rw [← Nat.zero_add (Literal.closing _ _).length] at hmark
  rw [htracks.text?_token .stringEnd hsource hstart hmark rfl, closing_delimiter hquote,
    opening.quoteRun_text]

theorem Replay.Follows.commit? {found : Found} {moves : List Move}
    (h : replay.Follows openings state) (hfinds : state.Finds valid chars found moves)
    (hsource : source.toList = before ++ chars)
    (htracks : ByteReader.Tracks (Utf8.pieces (Utf8.encode chars)) (Utf8.encode before).length reader
      (Reader.follow { rest := chars : Track } moves)) :
    ∃ after newer,
      replay.commit? source (reader.token found.kind) state.indents.top
          (state.apply found).indents.top = some after ∧
        after.Follows newer (state.apply found) := by
  cases hfinds with
  | newline => exact ⟨replay, openings, rfl, h⟩
  | stringContent => exact ⟨replay, openings, rfl, h⟩
  | @indent skipped level hvalid hliteral hlevel =>
    have hnext := h.indent hlevel
    have htop : (state.apply (.indent level)).indents.top = level := hnext.top_eq
    refine ⟨_, openings, rfl, ?_⟩
    rw [htop]
    exact hnext
  | dedent skipped hvalid hliteral hwidth =>
    obtain ⟨block, blocks, hblocks, htop, hnext⟩ := h.dedent hwidth
    exact ⟨_, _, Replay.commit?_dedent rfl hblocks htop, hnext⟩
  | @stringStart skipped looked opening rest hvalid hliteral hchars =>
    obtain ⟨hstart, hmark⟩ := Literal.follow_skips_moves looked hchars
    have htext := htracks.text?_token .stringStart hsource hstart hmark hchars
    exact ⟨_, opening :: openings, Replay.commit?_stringStart _ _ rfl htext, h.stringStart opening⟩
  | @stringEnd delimiter quote rest hliteral hquote hchars =>
    obtain ⟨opening, outer, rfl, rfl, hnext⟩ :=
      h.stringEnd (State.delimiter?_of_literal? hliteral)
    have htext := text?_token_stringEnd hsource hquote hchars htracks
    have hliterals := h.literals
    rw [List.map_cons] at hliterals
    rw [hliterals] at hnext
    exact ⟨_, outer, Replay.commit?_stringEnd _ _ rfl hliterals htext, hnext⟩

end Step

theorem scanAt_cases {openings : List Literal.Opening} {replay : Replay} {scanner : Scanner}
    {call : Call} (hfollows : replay.Follows openings scanner.state) (hcall : call.OnBoundary) :
    (scanner.scanAt call.source call.offset call.valid).value = (.ok none, scanner) ∨
    ∃ token next after newer,
      (scanner.scanAt call.source call.offset call.valid).value = (.ok (some token), next) ∧
      replay.commit? call.source token scanner.state.indents.top next.state.indents.top
        = some after ∧
      after.Follows newer next.state := by
  obtain ⟨before, chars, hsource, hoffset⟩ := hcall
  have htracks := ByteReader.tracks_ofString hsource hoffset
  have hahead : Reader.ahead (ByteReader.ofString call.source call.offset) = chars :=
    htracks.rest.symm
  rw [value_scanAt]
  dsimp only
  obtain ⟨_, houtcome, hscanner⟩ | ⟨found, _, hfinds, houtcome, hscanner⟩ :=
    Scanner.scan_cases (ByteReader.ofString call.source call.offset) call.valid hfollows.wellFormed
  . rw [houtcome, hscanner]
    exact .inl rfl
  . rw [houtcome, hscanner, Scanner.reader_scan]
    rw [hahead] at hfinds ⊢
    -- Wherever the scan went, the offsets of its token are known from the moves alone
    obtain ⟨after, newer, hcommit, hnext⟩ :=
      hfollows.commit? hfinds hsource (htracks.follow _)
    exact .inr ⟨_, _, after, newer, rfl, hcommit, hnext⟩

theorem replay?_of_follows {openings : List Literal.Opening} {replay : Replay} {scanner : Scanner}
    {calls : List Call} (hfollows : replay.Follows openings scanner.state)
    (hcalls : ∀ call ∈ calls, call.OnBoundary) :
    ∃ newer after last, replay? replay scanner calls = some (after, last) ∧
      after.Follows newer last.state := by
  induction calls generalizing openings replay scanner with
  | nil => exact ⟨openings, replay, scanner, rfl, hfollows⟩
  | cons call calls ih =>
    rw [List.forall_mem_cons] at hcalls
    rw [replay?]
    obtain hvalue | ⟨token, next, after, newer, hvalue, hcommit, hnext⟩ :=
      scanAt_cases hfollows hcalls.1
    . rw [hvalue]
      apply ih hfollows hcalls.2
    . rw [hvalue]
      dsimp only
      rw [hcommit]
      apply ih hnext hcalls.2

theorem replay?_eq_some (options : Options) {calls : List Call}
    (h : ∀ call ∈ calls, call.OnBoundary) :
    ∃ replay scanner, replay? {} { options } calls = some (replay, scanner) ∧
      replay.Describes scanner.state := by
  have hinitial : Replay.Follows [] {} (Scanner.mk options {}).state := .initial
  obtain ⟨openings, replay, scanner, hreplay, hfollows⟩ := replay?_of_follows hinitial h
  exact ⟨replay, scanner, hreplay, hfollows.describes⟩

theorem replay?_block_with_literal :
    let source := "\n  rb'a'"
    let calls : List Call :=
      [
        ⟨source, 0, .ofList [.newline, .indent]⟩,
        ⟨source, 3, .ofList [.newline, .stringStart]⟩,
        ⟨source, 6, .ofList [.stringContent, .stringEnd]⟩,
        ⟨source, 7, .ofList [.stringContent, .stringEnd]⟩,
        ⟨source, 100, .ofList [.newline, .dedent]⟩
      ]
    (∀ call ∈ calls, call.OnBoundary) ∧
      ∃ replay scanner, replay? {} { options := {} } calls = some (replay, scanner) ∧
        replay.Describes scanner.state := by
  intro source calls
  have hcalls : ∀ call ∈ calls, call.OnBoundary := by
    simp only [calls, List.forall_mem_cons]
    refine ⟨?_, ?_, ?_, ?_, ?_, by simp⟩
    . exact ⟨[], source.toList, by decide, by decide⟩
    . exact ⟨['\n', ' ', ' '], "rb'a'".toList, by decide, by decide⟩
    . exact ⟨"\n  rb'".toList, "a'".toList, by decide, by decide⟩
    . exact ⟨"\n  rb'a".toList, "'".toList, by decide, by decide⟩
    . exact ⟨source.toList, [], by decide, by decide⟩
  exact ⟨hcalls, replay?_eq_some {} hcalls⟩

end Session

end Offside
