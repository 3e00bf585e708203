import Offside.Literal.Start
import Offside.Proofs.Reading.Track

/-!
This module contains openings, the texts that string literals start with, and the proof that the
start of a literal is found exactly where an opening is ahead, of which there is only one.
-/

namespace Offside

namespace Delimiter

def ofParts (isRaw isFormat isTriple isBytes : Bool) (quote? : Option Quote) : Delimiter :=
  ⟨quote?.elim 0 Quote.flag ||| cond isRaw raw 0 ||| cond isFormat format 0 |||
    cond isTriple triple 0 ||| cond isBytes bytes 0⟩

variable (isRaw isFormat isTriple isBytes : Bool) (quote : Quote)

theorem has_ofParts {flag : UInt8} {isSet : Bool}
    (h : (flag, isSet) ∈
      [(raw, isRaw), (format, isFormat), (triple, isTriple), (bytes, isBytes), (unused, false)]) :
    (ofParts isRaw isFormat isTriple isBytes (some quote)).has flag = isSet := by
  simp only [List.mem_cons, Prod.mk.injEq, List.not_mem_nil, or_false] at h
  obtain ⟨rfl, heq⟩ | ⟨rfl, heq⟩ | ⟨rfl, heq⟩ | ⟨rfl, heq⟩ | ⟨rfl, heq⟩ := h
  all_goals cases quote <;> revert isRaw isFormat isTriple isBytes isSet <;> decide

theorem quotes_ofParts :
    (ofParts isRaw isFormat isTriple isBytes (some quote)).quotes = [quote] := by
  cases quote <;> revert isRaw isFormat isTriple isBytes <;> decide

theorem wellFormed_ofParts :
    (ofParts isRaw isFormat isTriple isBytes (some quote)).WellFormed where
  unused_eq_false := by
    apply has_ofParts
    simp
  length_quotes := by
    rw [quotes_ofParts]
    rfl

@[simp]
theorem set_flag_ofParts :
    (ofParts isRaw isFormat false isBytes none).set quote.flag
      =
    ofParts isRaw isFormat false isBytes (some quote) := by
  cases quote <;> revert isRaw isFormat isBytes <;> decide

@[simp]
theorem set_triple_ofParts :
    (ofParts isRaw isFormat false isBytes (some quote)).set triple
      =
    ofParts isRaw isFormat true isBytes (some quote) := by
  cases quote <;> revert isRaw isFormat isBytes <;> decide

end Delimiter

namespace Literal

def isRawLetter (letter : Char) : Bool :=
  letter == 'r' || letter == 'R'

def isFormatLetter (letter : Char) : Bool :=
  letter == 'f' || letter == 'F'

def isBytesLetter (letter : Char) : Bool :=
  letter == 'b' || letter == 'B'

structure Opening where
  letters : List Char
  quote : Quote
  isTriple : Bool
  isLetter : ∀ letter ∈ letters, Literal.isLetter letter = true

namespace Opening

def quotes (opening : Opening) : List Char :=
  List.replicate (if opening.isTriple then 3 else 1) opening.quote.char

def text (opening : Opening) : List Char :=
  opening.letters ++ opening.quotes

theorem length_text (opening : Opening) :
    opening.text.length = opening.letters.length + 1 + if opening.isTriple then 2 else 0 := by
  cases h : opening.isTriple <;> simp [text, quotes, h]

def delimiter (opening : Opening) : Delimiter :=
  .ofParts (opening.letters.any isRawLetter) (opening.letters.any isFormatLetter) opening.isTriple
    (opening.letters.any isBytesLetter) (some opening.quote)

theorem wellFormed_delimiter (opening : Opening) : opening.delimiter.WellFormed := by
  apply Delimiter.wellFormed_ofParts

@[simp]
theorem quote?_delimiter (opening : Opening) : opening.delimiter.quote? = some opening.quote := by
  rw [Delimiter.quote?, delimiter, Delimiter.quotes_ofParts]
  rfl

@[simp]
theorem isTriple_delimiter (opening : Opening) : opening.delimiter.isTriple = opening.isTriple := by
  apply Delimiter.has_ofParts
  simp

end Opening

theorem withLetter?_ofParts {isRaw isFormat isBytes : Bool} {letter : Char}
    (h : isLetter letter = true) :
    (Delimiter.ofParts isRaw isFormat false isBytes none).withLetter? letter
      =
    some (.ofParts (isRaw || isRawLetter letter) (isFormat || isFormatLetter letter) false
      (isBytes || isBytesLetter letter) none) := by
  unfold isLetter Delimiter.letterFlag? at h
  unfold Delimiter.withLetter? Delimiter.letterFlag?
  split at h
  case h_9 => contradiction
  all_goals
    revert isRaw isFormat isBytes
    decide

theorem ofLetters_eq {letters : List Char} (h : ∀ letter ∈ letters, isLetter letter = true) :
    ofLetters letters = .ofParts (letters.any isRawLetter) (letters.any isFormatLetter) false
      (letters.any isBytesLetter) none := by
  suffices hfold : ∀ isRaw isFormat isBytes : Bool,
      letters.foldl (fun delimiter letter => (delimiter.withLetter? letter).getD delimiter)
          (Delimiter.ofParts isRaw isFormat false isBytes none)
        =
      Delimiter.ofParts (isRaw || letters.any isRawLetter) (isFormat || letters.any isFormatLetter) false
        (isBytes || letters.any isBytesLetter) none by
    apply hfold false false false
  induction letters with
  | nil => simp
  | cons letter letters ih =>
    rw [List.forall_mem_cons] at h
    intro isRaw isFormat isBytes
    rw [List.foldl_cons, withLetter?_ofParts h.1, Option.getD_some, ih h.2]
    simp only [List.any_cons, Bool.or_assoc]

namespace Opening

structure IsAhead (opening : Opening) (chars rest : List Char) : Prop where
  eq_append : chars = opening.text ++ rest
  isTriple_of_prefix : [opening.quote.char, opening.quote.char] <+: rest → opening.isTriple = true

def moves (opening : Opening) : List Move :=
  List.replicate opening.letters.length .consume ++ [.consume, .mark] ++
    if opening.isTriple then [.consume, .consume, .mark] else []

theorem follow_moves (opening : Opening) {track : Track} {rest : List Char}
    (h : track.rest = opening.text ++ rest) :
    Reader.follow track opening.moves
      =
    { track with
      rest
      passed := track.passed + opening.text.length
      mark? := some (track.passed + opening.text.length) } := by
  obtain ⟨chars, passed, start, mark?⟩ := track
  dsimp only at h
  subst h
  rw [moves, Reader.follow_append, Reader.follow_append, Track.follow_replicate_consume]
  . cases htriple : opening.isTriple with
    | true =>
      simp [text, quotes, htriple, Track.mark, Reader.move, Track.consume, List.replicate]
      omega
    | false =>
      simp [text, quotes, htriple, Track.mark, Reader.move, Track.consume]
      omega
  . simp [text]

end Opening

theorem exists_replicate_append (char : Char) (chars : List Char) :
    ∃ rest, chars = List.replicate (chars.takeWhile (· = char)).length char ++ rest := by
  refine ⟨chars.dropWhile (· = char), ?_⟩
  have htake : chars.takeWhile (· = char)
      = List.replicate (chars.takeWhile (· = char)).length char := by
    rw [List.eq_replicate_iff]
    constructor
    . rfl
    . simpa using List.all_eq_true.1 (@List.all_takeWhile _ (· = char) chars)
  rw [← htake, List.takeWhile_append_dropWhile]

theorem isLetter_char (quote : Quote) : isLetter quote.char = false := by
  cases quote <;> decide

variable {letters : List Char}

def Opening.ofFront (h : ∀ letter ∈ letters, Literal.isLetter letter = true) (quote : Quote)
    (rest : List Char) : Opening where
  letters
  quote
  isTriple := 2 ≤ (rest.takeWhile (· = quote.char)).length
  isLetter := h

theorem Opening.exists_isAhead (h : ∀ letter ∈ letters, Literal.isLetter letter = true)
    (quote : Quote) (rest : List Char) :
    ∃ more, (ofFront h quote rest).IsAhead (letters ++ quote.char :: rest) more := by
  obtain ⟨more, hmore⟩ := exists_replicate_append quote.char rest
  by_cases hcount : 2 ≤ (rest.takeWhile (· = quote.char)).length
  . have htriple : (ofFront h quote rest).isTriple = true := decide_eq_true hcount
    obtain ⟨count, hlength⟩ := Nat.exists_eq_add_of_le' hcount
    rw [hlength, List.replicate_succ, List.replicate_succ] at hmore
    refine ⟨List.replicate count quote.char ++ more, ?_, fun _ => htriple⟩
    rw [text, quotes, htriple, hmore]
    simp [ofFront, List.replicate]
  . have htriple : (ofFront h quote rest).isTriple = false := decide_eq_false hcount
    refine ⟨rest, ?_, ?_⟩
    . rw [text, quotes, htriple]
      simp [ofFront]
    . rintro ⟨more, hrest⟩
      rw [← hrest] at hcount
      simp [ofFront] at hcount

theorem takeWhile_letters_append (h : ∀ letter ∈ letters, isLetter letter = true) {char : Char}
    (hchar : isLetter char = false) (rest : List Char) :
    (letters ++ char :: rest).takeWhile isLetter = letters ∧
      (letters ++ char :: rest).dropWhile isLetter = char :: rest := by
  constructor
  . rw [List.takeWhile_append_of_pos h, List.takeWhile_cons_of_neg (by simp [hchar]), List.append_nil]
  . rw [List.dropWhile_append_of_pos h, List.dropWhile_cons_of_neg (by simp [hchar])]

theorem scanStart_append_quote (h : ∀ letter ∈ letters, isLetter letter = true) (quote : Quote)
    (rest : List Char) :
    scanStart (letters ++ quote.char :: rest)
      =
    { value := some (.stringStart (Opening.ofFront h quote rest).delimiter)
      moves := (Opening.ofFront h quote rest).moves ++
        List.replicate (if (rest.takeWhile (· = quote.char)).length = 1 then 1 else 0) .consume } := by
  obtain ⟨htake, hdrop⟩ := takeWhile_letters_append h (isLetter_char quote) rest
  unfold scanStart
  simp only [htake, hdrop, ofLetters_eq h, Delimiter.withQuote?, Quote.ofChar?_char, Option.map_some,
    Delimiter.set_flag_ofParts, Delimiter.set_triple_ofParts]
  -- No second quote, no third one, or at least three
  split
  all_goals next hcount =>
    simp [Opening.moves, Opening.delimiter, Opening.ofFront, hcount, List.map_const']

theorem scanStart_of_letters (h : ∀ letter ∈ letters, isLetter letter = true) :
    scanStart letters = { value := none, moves := List.replicate letters.length .consume } := by
  have htake := @List.takeWhile_append_of_pos _ isLetter letters [] h
  have hdrop := @List.dropWhile_append_of_pos _ isLetter letters [] h
  rw [List.append_nil, List.takeWhile_nil, List.append_nil] at htake
  rw [List.append_nil, List.dropWhile_nil] at hdrop
  unfold scanStart
  simp only [htake, hdrop, List.map_const']

theorem scanStart_append_char (h : ∀ letter ∈ letters, isLetter letter = true) {char : Char}
    (hletter : isLetter char = false) (hquote : Quote.ofChar? char = none) (rest : List Char) :
    scanStart (letters ++ char :: rest)
      =
    { value := none
      moves := List.replicate letters.length .consume
      events := if letters.isEmpty then [] else [.lettersWithoutQuote] } := by
  obtain ⟨htake, hdrop⟩ := takeWhile_letters_append h hletter rest
  unfold scanStart
  simp only [htake, hdrop, Delimiter.withQuote?, hquote, Option.map_none, List.map_const']

inductive Front : List Char → Prop
  | letters {letters : List Char} (h : ∀ letter ∈ letters, isLetter letter = true) : Front letters
  | quote {letters : List Char} (h : ∀ letter ∈ letters, isLetter letter = true) (quote : Quote)
    (rest : List Char) : Front (letters ++ quote.char :: rest)
  | char {letters : List Char} (h : ∀ letter ∈ letters, isLetter letter = true) {char : Char}
    (hletter : isLetter char = false) (hquote : Quote.ofChar? char = none) (rest : List Char) :
    Front (letters ++ char :: rest)

theorem front (chars : List Char) : Front chars := by
  induction chars with
  | nil => exact .letters (by simp)
  | cons first chars ih =>
    cases hfirst : isLetter first with
    | true =>
      cases ih with
      | letters h => exact .letters (List.forall_mem_cons.2 ⟨hfirst, h⟩)
      | quote h quote rest => exact .quote (List.forall_mem_cons.2 ⟨hfirst, h⟩) quote rest
      | char h hletter hquote rest =>
        exact .char (List.forall_mem_cons.2 ⟨hfirst, h⟩) hletter hquote rest
    | false =>
      cases hquote : Quote.ofChar? first with
      | none => exact @Front.char [] (by simp) first hfirst hquote chars
      | some quote =>
        obtain rfl := Quote.ofChar?_eq_some_iff.1 hquote
        exact @Front.quote [] (by simp) quote chars

theorem exists_opening_of_scanStart {chars : List Char} {found : Found}
    (h : (scanStart chars).value = some found) :
    ∃ (opening : Opening) (rest : List Char) (looked : Nat),
      opening.IsAhead chars rest ∧
      found = .stringStart opening.delimiter ∧
      (scanStart chars).moves = opening.moves ++ List.replicate looked .consume := by
  cases front chars with
  | letters hletters =>
    rw [scanStart_of_letters hletters] at h
    contradiction
  | quote hletters quote rest =>
    obtain ⟨more, hahead⟩ := Opening.exists_isAhead hletters quote rest
    rw [scanStart_append_quote hletters] at h ⊢
    exact ⟨_, more, _, hahead, (Option.some.inj h).symm, rfl⟩
  | char hletters hletter hquote rest =>
    rw [scanStart_append_char hletters hletter hquote] at h
    contradiction

theorem exists_text_append (opening : Opening) (rest : List Char) :
    ∃ more, opening.text ++ rest = opening.letters ++ opening.quote.char :: more := by
  refine ⟨opening.quotes.tail ++ rest, ?_⟩
  cases h : opening.isTriple <;> simp [Opening.text, Opening.quotes, h, List.replicate]

theorem ne_text_append_of_scanStart {chars : List Char} (h : (scanStart chars).value = none)
    (opening : Opening) (rest : List Char) : chars ≠ opening.text ++ rest := by
  rintro rfl
  obtain ⟨more, hmore⟩ := exists_text_append opening rest
  rw [hmore, scanStart_append_quote opening.isLetter] at h
  contradiction

namespace Opening

variable {opening : Opening} {chars rest : List Char}

theorem exists_quotes_eq_cons (opening : Opening) :
    ∃ quotes, opening.quotes = opening.quote.char :: quotes := by
  unfold quotes
  split
  . exact ⟨_, List.replicate_succ⟩
  . exact ⟨_, List.replicate_succ⟩

theorem takeWhile_text_append (opening : Opening) (rest : List Char) :
    (opening.text ++ rest).takeWhile Literal.isLetter = opening.letters := by
  obtain ⟨more, hmore⟩ := exists_text_append opening rest
  rw [hmore]
  exact (takeWhile_letters_append opening.isLetter (isLetter_char opening.quote) more).1

theorem IsAhead.isTriple_of_eq {more : List Char} (h : opening.IsAhead chars rest)
    (heq : opening.quotes ++ rest = List.replicate 3 opening.quote.char ++ more) :
    opening.isTriple = true := by
  cases htriple : opening.isTriple with
  | true => rfl
  | false =>
    rw [quotes, htriple, if_neg Bool.false_ne_true] at heq
    have hrest : rest = [opening.quote.char, opening.quote.char] ++ more := (List.cons.inj heq).2
    rw [← htriple]
    apply h.isTriple_of_prefix
    rw [hrest]
    apply List.prefix_append

theorem IsAhead.unique {lhs rhs : Opening} {more : List Char} (hlhs : lhs.IsAhead chars more)
    (hrhs : rhs.IsAhead chars rest) : lhs = rhs := by
  have htext : lhs.text ++ more = rhs.text ++ rest := hlhs.eq_append.symm.trans hrhs.eq_append
  have hletters : lhs.letters = rhs.letters := by
    rw [← lhs.takeWhile_text_append more, htext, takeWhile_text_append]
  have hquotes : lhs.quotes ++ more = rhs.quotes ++ rest := by
    rw [text, text, hletters, List.append_assoc, List.append_assoc] at htext
    exact List.append_cancel_left htext
  have hquote : lhs.quote = rhs.quote := by
    obtain ⟨_, hleft⟩ := lhs.exists_quotes_eq_cons
    obtain ⟨_, hright⟩ := rhs.exists_quotes_eq_cons
    rw [hleft, hright] at hquotes
    have hchar := congrArg Quote.ofChar? (List.cons.inj hquotes).1
    simpa using hchar
  have htriple : lhs.isTriple = rhs.isTriple := by
    rw [Bool.eq_iff_iff]
    constructor
    . intro hleft
      have hrun : rhs.quotes ++ rest = List.replicate 3 rhs.quote.char ++ more := by
        rw [← hquotes, quotes, if_pos hleft, hquote]
      exact hrhs.isTriple_of_eq hrun
    . intro hright
      have hrun : lhs.quotes ++ more = List.replicate 3 lhs.quote.char ++ rest := by
        rw [hquotes, quotes, if_pos hright, hquote]
      exact hlhs.isTriple_of_eq hrun
  cases lhs
  cases rhs
  simp_all

theorem exists_head?_text_append (opening : Opening) (rest : List Char) :
    ∃ char, (opening.text ++ rest).head? = some char ∧
      char ∉ [' ', '\t', '\n', '\r', '\x0c', '#', '\\'] := by
  obtain ⟨more, hmore⟩ := exists_text_append opening rest
  rw [hmore]
  cases hletters : opening.letters with
  | nil =>
    refine ⟨opening.quote.char, rfl, ?_⟩
    cases opening.quote <;> decide
  | cons letter letters =>
    refine ⟨letter, rfl, ?_⟩
    have hletter := opening.isLetter letter
    rw [hletters] at hletter
    intro hmem
    have hnone : [' ', '\t', '\n', '\r', '\x0c', '#', '\\'].all (!Literal.isLetter ·) = true := by
      decide
    replace hnone := List.all_eq_true.1 hnone letter hmem
    rw [hletter List.mem_cons_self] at hnone
    contradiction

end Opening

end Literal

end Offside
