import Offside.Proofs.Reading.Resuming
import Offside.Proofs.Session.Checking

/-!
This module contains the proof that a scan within a literal finds all text that there is: the next
scan from the end of the text finds the closing quotes, or it declines in front of what interrupts the
text.
-/

namespace Offside

namespace Literal

/--
The bytes start with what literals do not have as text: a backslash, unless it stands for itself, or a
single brace, if an expression may be interpolated there.
-/
inductive Interrupts (delimiter : Delimiter) (bytes : List UInt8) : Prop
  | backslash (hraw : delimiter.isRaw = false) (h : Utf8.encode ['\\'] <+: bytes)
  | brace (hformat : delimiter.isFormat = true) (h : Utf8.encode ['\x7b'] <+: bytes)
    (hsingle : ¬ Utf8.encode ['\x7b', '\x7b'] <+: bytes)

variable {delimiter : Delimiter} {quote : Quote} {segments : List (List Char)} {rest : List Char}
  {bytes : List UInt8}

theorem isPlain_of_mem_closing : ∀ char ∈ closing delimiter quote.char, Utf8.IsPlain char := by
  intro char hmem
  rw [closing, List.mem_replicate] at hmem
  rw [hmem.2]
  cases quote <;> decide

theorem length_closing :
    (closing delimiter quote.char).length = if delimiter.isTriple then 3 else 1 := by
  rw [closing, List.length_replicate]

theorem interrupts_of_stops {char : Char} {isFirst : Bool}
    (h : char = '\\' ∨ char = '\x7b' ∧ delimiter.isFormat = true)
    (hstops : (units delimiter quote).Stops isFirst (char :: rest))
    (hbytes : Utf8.chars bytes = char :: rest) : Interrupts delimiter bytes := by
  obtain rfl | ⟨rfl, hformat⟩ := h
  . apply Interrupts.backslash
    . rw [← Bool.not_eq_true]
      intro hraw
      exact hstops _ rest rfl (.backslash hraw)
    . rw [← Utf8.isPrefix_chars_iff (Utf8.isPlain_of_all rfl), hbytes]
      exact ⟨rest, rfl⟩
  . apply Interrupts.brace hformat
    . rw [← Utf8.isPrefix_chars_iff (Utf8.isPlain_of_all rfl), hbytes]
      exact ⟨rest, rfl⟩
    . rw [← Utf8.isPrefix_chars_iff (Utf8.isPlain_of_all rfl), hbytes]
      rintro ⟨more, hmore⟩
      exact hstops _ more hmore.symm (.braces hformat)

theorem Answers.obstacle_or_closing {answer : Answer}
    (h : Answers delimiter quote segments rest (some answer)) :
    (∃ char more, rest = char :: more ∧
      (char = '\\' ∨ char = '\x7b' ∧ delimiter.isFormat = true)) ∨
    ∃ more, rest = Literal.closing delimiter quote.char ++ more := by
  generalize hanswer : some answer = answer? at h
  cases h with
  | unterminated => contradiction
  | lineBreak => contradiction
  | obstacle rest h => exact .inl ⟨_, rest, rfl, h⟩
  | closing rest => exact .inr ⟨rest, rfl⟩

theorem Answers.head?_ne {answer : Answer}
    (h : Answers delimiter quote segments rest (some answer)) : rest.head? ≠ some '\n' := by
  obtain ⟨_, _, hline⟩ := quote_ne quote
  obtain ⟨quotes, hclosing⟩ := exists_closing_eq_cons delimiter quote
  obtain ⟨char, more, rfl, rfl | ⟨rfl, _⟩⟩ | ⟨more, rfl⟩ := h.obstacle_or_closing
  . simp
  . simp
  . simpa [hclosing] using hline

theorem Answers.eq_of_kind_eq {answer : Answer}
    (h : Answers delimiter quote segments rest (some answer)) (hkind : answer.kind = .stringContent) :
    answer = ⟨.stringContent, .keep, 0, ((units delimiter quote).text segments).length⟩ := by
  generalize hanswer : some answer = answer? at h
  cases h with
  | unterminated => contradiction
  | lineBreak => contradiction
  | obstacle rest h =>
    split at hanswer
    . contradiction
    . exact Option.some.inj hanswer
  | closing rest =>
    obtain rfl := Option.some.inj hanswer
    split at hkind
    . contradiction
    . next hne => exact if_neg hne

end Literal

namespace Scanner

variable {scanner : Scanner} {valid : TokenSet} {source : List UInt8} {offset : Nat}

theorem exists_units_of_content
    (h : (scanner.walk valid (Reader.ahead (ByteReader.ofBytes source offset))).value
      = some .stringContent) :
    ∃ delimiter quote segments rest count,
      scanner.state.literal? valid = some delimiter ∧ delimiter.quote? = some quote ∧
      (Literal.units delimiter quote).Splits (Reader.ahead (ByteReader.ofBytes source offset))
        segments rest ∧
      count = ((Literal.units delimiter quote).text segments).length ∧
      Literal.Answers delimiter quote segments rest (some ⟨.stringContent, .keep, 0, count⟩) ∧
      scanner.Gives (.ofBytes source offset) valid (some ⟨.stringContent, .keep, 0, count⟩) := by
  have hfinds := State.finds_of_scan h
  generalize (scanner.state.scan scanner.options.tabWidth valid _).moves = moves at hfinds
  cases hfinds with
  | @stringContent delimiter moves hliteral =>
    have hvalue := h
    rw [walk, State.scan_of_literal?_eq_some hliteral, Literal.scanContent] at hvalue
    cases hquote : delimiter.quote? with
    | none => simp [hquote] at hvalue
    | some quote =>
      obtain ⟨segments, rest, hsplits, _⟩ := (Literal.units delimiter quote).exists_splits
        (Reader.ahead (ByteReader.ofBytes source offset))
      obtain ⟨answer?, hanswers, hgives⟩ := exists_gives_of_units hliteral hquote hsplits
      have hkind := hgives.kind_eq
      rw [h, Option.map_some, Option.map_eq_some_iff] at hkind
      obtain ⟨answer, rfl, hkind⟩ := hkind
      have hanswer := hanswers.eq_of_kind_eq hkind
      rw [hanswer] at hanswers hgives
      exact ⟨delimiter, quote, segments, rest, _, hliteral, hquote, hsplits, rfl, hanswers, hgives⟩

theorem offsetBehind_closing {delimiter : Delimiter} {quote : Quote} {reader : ByteReader}
    (h : Utf8.encode (Literal.closing delimiter quote.char) <+: reader.rest) :
    reader.offsetBehind (Literal.closing delimiter quote.char).length
      =
    reader.position + if delimiter.isTriple then 3 else 1 := by
  obtain ⟨more, hmore⟩ := h
  rw [ByteReader.offsetBehind, ← hmore, Utf8.offset_pieces_encode_append,
    Utf8.length_encode_of_isPlain Literal.isPlain_of_mem_closing, Literal.length_closing]

section Boundary

variable {delimiter : Delimiter} {quote : Quote} {answer? : Option Answer}

theorem closes_of_isPrefix (hpasses : scanner.Passes)
    (hgives : scanner.Gives (ByteReader.ofBytes source offset) valid answer?)
    (hanswers : Literal.Answers delimiter quote []
      (Reader.ahead (ByteReader.ofBytes source offset)) answer?)
    (h : Utf8.encode (Literal.closing delimiter quote.char) <+: source.drop offset) :
    let reader := ByteReader.ofBytes source offset
    let scanned := (scanner.scan reader valid).value
    scanned.outcome = .ok (some .stringEnd) ∧
      scanned.reader.token .stringEnd
        = ⟨.stringEnd, reader.position, reader.position + if delimiter.isTriple then 3 else 1⟩ := by
  intro reader scanned
  have hrest := ByteReader.rest_ofBytes source offset
  rw [← hrest] at h
  obtain ⟨more, hmore⟩ := Utf8.isPrefix_chars_of_encode h
  have hahead : Reader.ahead reader = Literal.closing delimiter quote.char ++ more := hmore.symm
  rw [hahead] at hanswers
  have hanswer := hanswers.unique (.closing more)
  rw [if_pos rfl] at hanswer
  subst hanswer
  refine ⟨outcome_of_gives hpasses hgives, ?_⟩
  have htoken := hgives.token _ rfl
  rw [offsetBehind_closing h] at htoken
  exact htoken

theorem declines_of_not_isPrefix (hpasses : scanner.Passes)
    (hgives : scanner.Gives (ByteReader.ofBytes source offset) valid answer?)
    (hanswers : Literal.Answers delimiter quote []
      (Reader.ahead (ByteReader.ofBytes source offset)) answer?)
    (hstops : (Literal.units delimiter quote).Stops true
      (Reader.ahead (ByteReader.ofBytes source offset)))
    (hend : (∃ char more, Reader.ahead (ByteReader.ofBytes source offset) = char :: more ∧
        (char = '\\' ∨ char = '\x7b' ∧ delimiter.isFormat = true)) ∨
      ∃ more, Reader.ahead (ByteReader.ofBytes source offset)
        = Literal.closing delimiter quote.char ++ more)
    (h : ¬ Utf8.encode (Literal.closing delimiter quote.char) <+: source.drop offset) :
    (scanner.scan (ByteReader.ofBytes source offset) valid).value.outcome = .ok none ∧
      Literal.Interrupts delimiter (source.drop offset) := by
  have hchars : Utf8.chars (source.drop offset)
      = Reader.ahead (ByteReader.ofBytes source offset) := by
    rw [← ByteReader.rest_ofBytes]
    rfl
  rw [outcome_of_gives hpasses hgives]
  obtain ⟨char, more, hahead, hobstacle⟩ | ⟨more, hahead⟩ := hend
  . rw [hahead] at hanswers hstops hchars
    have hanswer := hanswers.unique (.obstacle more hobstacle)
    rw [if_pos rfl] at hanswer
    rw [hanswer]
    exact ⟨rfl, Literal.interrupts_of_stops hobstacle hstops hchars⟩
  -- Closing quotes ahead would be there as bytes too
  . rw [← Utf8.isPrefix_chars_iff Literal.isPlain_of_mem_closing, hchars, hahead] at h
    exact absurd (List.prefix_append _ _) h

end Boundary

theorem scan_behind_content
    (h : (scanner.scan (ByteReader.ofBytes source offset) valid).value.outcome
      = .ok (some .stringContent)) :
    let scanned := (scanner.scan (ByteReader.ofBytes source offset) valid).value
    let stop := (scanned.reader.token .stringContent).stop
    let next := (scanned.scanner.scan (ByteReader.ofBytes source stop) valid).value
    ∃ delimiter quote,
      scanned.scanner.state.delimiter? = some delimiter ∧ delimiter.quote? = some quote ∧
      (Utf8.encode (Literal.closing delimiter quote.char) <+: source.drop stop →
        next.outcome = .ok (some .stringEnd) ∧
        next.reader.token .stringEnd
          = ⟨.stringEnd, stop, stop + if delimiter.isTriple then 3 else 1⟩) ∧
      (¬ Utf8.encode (Literal.closing delimiter quote.char) <+: source.drop stop →
        next.outcome = .ok none ∧ Literal.Interrupts delimiter (source.drop stop)) := by
  intro scanned stop next
  obtain ⟨hkind, hpasses⟩ := of_report_eq_ok ((outcome_scan_eq_report _ _ _).symm.trans h)
  obtain ⟨found, hvalue, hfound⟩ := Option.map_eq_some_iff.1 hkind
  have hcontent : found = .stringContent := by
    cases found <;> simp_all [Found.kind]
  subst hcontent
  obtain ⟨delimiter, quote, segments, rest, count, hliteral, hquote, hsplits, hcount, hanswers, hgives⟩ :=
    exists_units_of_content hvalue
  have hsame : scanned.scanner = scanner := by
    have hstate : scanned.scanner.state = scanner.state := hgives.change
    exact congrArg (Scanner.mk scanner.options) hstate
  replace hpasses : scanner.Passes := by
    rw [← hsame]
    exact hpasses
  have hstop : stop = (ByteReader.ofBytes source offset).offsetBehind count :=
    congrArg Token.stop (hgives.token _ rfl)
  have hahead : Reader.ahead (ByteReader.ofBytes source stop) = rest := by
    rw [hstop, ByteReader.offsetBehind, ByteReader.ahead_ofBytes_position_add, hsplits.eq_append,
      hcount, List.drop_left]
  have hposition : (ByteReader.ofBytes source stop).position = stop := by
    rw [hstop, ByteReader.offsetBehind, ByteReader.ofBytes_position_add]
  -- Behind the text no unit starts, even if it were the first one
  have hstops : (Literal.units delimiter quote).Stops true rest :=
    Literal.stops_of_head?_ne hsplits.run.stops hanswers.head?_ne
  obtain ⟨answer?, hnext, hnextGives⟩ := exists_gives_of_units hliteral hquote
    ⟨hahead, .stop hstops⟩
  have hend := hanswers.obstacle_or_closing
  rw [← hahead] at hnext hstops hend
  rw [hsame]
  refine ⟨delimiter, quote, State.delimiter?_of_literal? hliteral, hquote, ?_, ?_⟩
  . intro hclosing
    simp only [next, hsame]
    obtain ⟨houtcome, htoken⟩ := closes_of_isPrefix hpasses hnextGives hnext hclosing
    rw [hposition] at htoken
    exact ⟨houtcome, htoken⟩
  . intro hclosing
    simp only [next, hsame]
    exact declines_of_not_isPrefix hpasses hnextGives hnext hstops hend hclosing

theorem scan_behind_content_damaged_byte :
    let scanner : Scanner := { state := { delimiters := #[⟨0x21⟩] } }
    let valid : TokenSet := .ofList [.stringContent, .stringEnd]
    let source : List UInt8 := [0x61, 0xff, 0x27, 0x27, 0x27]
    let scanned := (scanner.scan (ByteReader.ofBytes source 0) valid).value
    let next := (scanned.scanner.scan (ByteReader.ofBytes source 2) valid).value
    scanned.outcome = .ok (some .stringContent) ∧
      scanned.reader.token .stringContent = ⟨.stringContent, 0, 2⟩ ∧
      next.outcome = .ok (some .stringEnd) ∧ next.reader.token .stringEnd = ⟨.stringEnd, 2, 5⟩ := by
  intro scanner valid source scanned next
  have hpasses : scanner.Passes := by
    intro _
    decide
  have hkind : (scanner.walk valid (Reader.ahead (ByteReader.ofBytes source 0))).value.map Found.kind
      = some .stringContent := by
    decide +kernel
  have houtcome : scanned.outcome = .ok (some .stringContent) := by
    rw [outcome_scan_eq_report, hkind]
    apply unlessMalformed_of_passes
    exact hpasses.scan _ _
  have htoken : scanned.reader.token .stringContent = ⟨.stringContent, 0, 2⟩ := by
    decide +kernel
  have hdelimiter : scanned.scanner.state.delimiter? = some ⟨0x21⟩ := by
    decide +kernel
  have hsingle : Delimiter.quote? ⟨0x21⟩ = some .single := by
    decide +kernel
  have hclosing : Utf8.encode (Literal.closing ⟨0x21⟩ Quote.single.char) <+: source.drop 2 := by
    decide +kernel
  obtain ⟨delimiter, quote, hopen, hquote, hcloses, _⟩ := scan_behind_content houtcome
  obtain rfl := Option.some.inj (hdelimiter.symm.trans hopen)
  obtain rfl := Option.some.inj (hsingle.symm.trans hquote)
  have hstop : (scanned.reader.token .stringContent).stop = 2 := congrArg Token.stop htoken
  rw [hstop] at hcloses
  exact ⟨houtcome, htoken, hcloses hclosing⟩

end Scanner

end Offside
