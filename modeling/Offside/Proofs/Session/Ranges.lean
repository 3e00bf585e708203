import Offside.Proofs.Reading.Boundaries
import Offside.Proofs.Session.Maximality

/-!
This module contains the proof that every token which a scan finds covers a sound range of the source,
whatever the bytes of the source are.
-/

namespace Offside

namespace ByteReader

theorem exists_le_mark_follow {reader : ByteReader} {mark : Nat} (moves : List Move)
    (hmark : mark ∈ reader.mark?) (hposition : mark ≤ reader.position) :
    mark ≤ (Reader.follow reader moves).position ∧
      ∃ later ∈ (Reader.follow reader moves).mark?, mark ≤ later := by
  apply Reader.follow_inv fun reader : ByteReader =>
    mark ≤ reader.position ∧ ∃ later ∈ reader.mark?, mark ≤ later
  . intro next _ reader h
    have hconsume : mark ≤ reader.consume.position ∧ ∃ later ∈ reader.consume.mark?, mark ≤ later := by
      unfold consume
      split
      . exact h
      . exact ⟨Nat.le_add_right_of_le h.1, h.2⟩
    cases next with
    | consume => exact hconsume
    | skip =>
      simp only [Reader.move, skip]
      split
      . exact h
      . exact hconsume
    | mark => exact ⟨h.1, reader.position, rfl, h.1⟩
  . exact ⟨hposition, mark, hmark, Nat.le_refl mark⟩

theorem exists_le_mark_follow_append {reader : ByteReader} {mark : Nat} {before : List Move}
    (hreader : reader.mark? = none) (hmark : mark ∈ (Reader.follow reader before).mark?)
    (between : List Move) :
    ∃ later ∈ (Reader.follow reader (before ++ between)).mark?, mark ≤ later := by
  have hposition : mark ≤ (Reader.follow reader before).position := by
    apply mark_le_position_follow before _ mark hmark
    simp [hreader]
  rw [Reader.follow_append]
  exact (exists_le_mark_follow between hmark hposition).2

end ByteReader

/--
Where a token may stand that is found from `reader` on. At the end of a line it is empty, whatever was
skipped. Only the start of a literal stands behind the blanks, all of which are passed.
-/
inductive State.Places (state : State) (reader : ByteReader) : Token → Prop
  | newline : Places state reader ⟨.newline, reader.position, reader.position⟩
  | indent : Places state reader ⟨.indent, reader.position, reader.position⟩
  | dedent : Places state reader ⟨.dedent, reader.position, reader.position⟩
  | stringStart {passed : List Blanks.Item} {rest : List Char} {start stop : Nat}
    (h : Blanks.items.Splits (Reader.ahead reader) passed rest)
    (hstart : start = reader.offsetBehind (Blanks.items.text passed).length) (hstop : start < stop) :
    Places state reader ⟨.stringStart, start, stop⟩
  | stringContent {stop : Nat} (hstop : reader.position < stop) :
    Places state reader ⟨.stringContent, reader.position, stop⟩
  | stringEnd {delimiter : Delimiter} (h : state.delimiter? = some delimiter) :
    Places state reader
      ⟨.stringEnd, reader.position, reader.position + if delimiter.isTriple then 3 else 1⟩

def Answer.token (answer : Answer) (reader : ByteReader) : Token :=
  ⟨answer.kind, reader.offsetBehind answer.start, reader.offsetBehind answer.stop⟩

namespace Layout

variable {tabWidth top : UInt32} {valid : TokenSet} {passed : List Blanks.Item} {rest : List Char}
  {answer : Answer}

theorem places_of_lineAnswer? (state : State) (reader : ByteReader)
    (h : lineAnswer? tabWidth top valid passed rest = some answer) :
    state.Places reader (answer.token reader) := by
  unfold lineAnswer? at h
  dsimp only at h
  generalize (if rest = [] then 0 else Blanks.indent tabWidth passed) = width at h
  split at h
  . contradiction
  . split at h
    . obtain rfl := Option.some.inj h
      exact .indent
    . split at h
      . obtain rfl := Option.some.inj h
        exact .dedent
      . split at h
        . obtain rfl := Option.some.inj h
          exact .newline
        . contradiction

theorem Answers.places (state : State) {reader : ByteReader}
    (h : Answers tabWidth top valid passed rest (some answer))
    (hsplits : Blanks.items.Splits (Reader.ahead reader) passed rest) :
    state.Places reader (answer.token reader) := by
  cases h with
  | line _ h => apply places_of_lineAnswer? state reader h
  | @literal _ more opening _ _ _ h =>
    apply State.Places.stringStart hsplits rfl
    apply @ByteReader.offsetBehind_lt _ _ opening.text more
    . rw [hsplits.eq_append, h.eq_append]
    . intro hnil
      have hlength := opening.length_text
      rw [hnil, List.length_nil] at hlength
      omega

end Layout

namespace Literal

variable {delimiter : Delimiter} {quote : Quote} {segments : List (List Char)} {rest : List Char}
  {answer : Answer}

theorem Answers.places {state : State} {reader : ByteReader}
    (h : Answers delimiter quote segments rest (some answer))
    (hsplits : (units delimiter quote).Splits (Reader.ahead reader) segments rest)
    (hopen : state.delimiter? = some delimiter) :
    state.Places reader (answer.token reader) := by
  have hcontent (hsegments : segments ≠ []) : state.Places reader
      (Answer.token ⟨.stringContent, .keep, 0, ((units delimiter quote).text segments).length⟩
        reader) := by
    apply State.Places.stringContent
    have hlt := @ByteReader.offsetBehind_lt reader [] ((units delimiter quote).text segments) rest
      hsplits.eq_append (mt hsplits.run.text_eq_nil_iff.1 hsegments)
    simpa [ByteReader.offsetBehind_zero] using hlt
  generalize hanswer : some answer = answer? at h
  cases h with
  | unterminated => contradiction
  | lineBreak => contradiction
  | obstacle =>
    split at hanswer
    . contradiction
    . next hsegments =>
      obtain rfl := Option.some.inj hanswer
      apply hcontent hsegments
  | closing more =>
    obtain rfl := Option.some.inj hanswer
    split
    . next hsegments =>
      subst hsegments
      have hclosing : Utf8.encode (Literal.closing delimiter quote.char) <+: reader.rest := by
        rw [← Utf8.isPrefix_chars_iff isPlain_of_mem_closing]
        exact ⟨more, hsplits.eq_append.symm⟩
      rw [Answer.token, Scanner.offsetBehind_closing hclosing]
      exact .stringEnd hopen
    . next hsegments => apply hcontent hsegments

end Literal

namespace Scanner

structure SoundRange (scanner : Scanner) (source : List UInt8) (offset : Nat) (last : ByteReader)
    (token : Token) : Prop where
  mark? : last.mark? = some token.stop
  origin_le_start : min offset source.length ≤ token.start
  start_le_stop : token.start ≤ token.stop
  stop_le_position : token.stop ≤ last.position
  position_le_length : last.position ≤ source.length
  places : scanner.state.Places (.ofBytes source offset) token
  isBoundary : ∀ text : String, source = Utf8.encode text.toList →
    Utf8.IsBoundary text (min offset source.length) →
    Utf8.IsBoundary text token.start ∧ Utf8.IsBoundary text token.stop ∧
      Utf8.IsBoundary text last.position ∧ ∃ covered, token.text? text = some covered

variable {scanner : Scanner} {valid : TokenSet} {source : List UInt8} {offset : Nat} {kind : TokenKind}

theorem places_token
    (h : (scanner.walk valid (Reader.ahead (ByteReader.ofBytes source offset))).value.map Found.kind
      = some kind) :
    scanner.state.Places (.ofBytes source offset)
      ((scanner.scan (ByteReader.ofBytes source offset) valid).value.reader.token kind) := by
  cases hliteral : scanner.state.literal? valid with
  | none =>
    obtain ⟨passed, rest, hsplits, _⟩ :=
      Blanks.items.exists_splits (Reader.ahead (ByteReader.ofBytes source offset))
    obtain ⟨answer?, hanswers, hgives⟩ := exists_gives_of_items hliteral hsplits
    obtain ⟨answer, rfl, rfl⟩ := Option.map_eq_some_iff.1 (hgives.kind_eq.trans h)
    rw [hgives.token answer rfl]
    apply hanswers.places scanner.state hsplits
  | some delimiter =>
    cases hquote : delimiter.quote? with
    | none =>
      rw [walk, State.scan_of_literal?_eq_some hliteral, Literal.scanContent, hquote] at h
      contradiction
    | some quote =>
      obtain ⟨segments, rest, hsplits, _⟩ := (Literal.units delimiter quote).exists_splits
        (Reader.ahead (ByteReader.ofBytes source offset))
      obtain ⟨answer?, hanswers, hgives⟩ := exists_gives_of_units hliteral hquote hsplits
      obtain ⟨answer, rfl, rfl⟩ := Option.map_eq_some_iff.1 (hgives.kind_eq.trans h)
      rw [hgives.token answer rfl]
      apply hanswers.places hsplits (State.delimiter?_of_literal? hliteral)

theorem soundRange_token
    (h : (scanner.walk valid (Reader.ahead (ByteReader.ofBytes source offset))).value.map Found.kind
      = some kind) :
    let last := (scanner.scan (ByteReader.ofBytes source offset) valid).value.reader
    scanner.SoundRange source offset last (last.token kind) := by
  intro last
  let reader := ByteReader.ofBytes source offset
  have hplaces : scanner.state.Places reader (last.token kind) := places_token h
  obtain ⟨found, hvalue, _⟩ := Option.map_eq_some_iff.1 h
  obtain ⟨start, stop, passed, hstart, hstop, hmark, htoken, hposition⟩ :=
    @ByteReader.exists_offsets reader.rest reader.position _ (State.finds_of_scan hvalue).mark_mem kind
  replace hmark : last.mark? = some (reader.offsetBehind stop) := hmark
  replace htoken : last.token kind = ⟨kind, reader.offsetBehind start, reader.offsetBehind stop⟩ := htoken
  replace hposition : last.position = reader.offsetBehind passed := hposition
  rw [htoken] at hplaces ⊢
  exact
    {
      mark? := hmark
      origin_le_start := Nat.le_add_right (min offset source.length) _
      start_le_stop := ByteReader.offsetBehind_le hstart
      stop_le_position := by
        rw [hposition]
        exact ByteReader.offsetBehind_le hstop
      position_le_length := by
        have hlength : reader.position + reader.rest.length = source.length := by
          simp only [reader, ByteReader.ofBytes, List.length_drop]
          omega
        rw [hposition, ← hlength]
        apply ByteReader.offsetBehind_le_length
      places := hplaces
      isBoundary := by
        rintro text rfl horigin
        have hboundary := ByteReader.isBoundary_offsetBehind horigin
        rw [hposition]
        refine ⟨hboundary start, hboundary stop, hboundary passed, ?_⟩
        exact Token.exists_text? (hboundary start) (hboundary stop) (ByteReader.offsetBehind_le hstart)
    }

theorem scan_within_source (scanner : Scanner) (source : List UInt8) (offset : Nat) (valid : TokenSet) :
    let reader := ByteReader.ofBytes source offset
    let scanned := (scanner.scan reader valid).value
    (∀ before between after,
      (scanner.walk valid (Reader.ahead reader)).moves = before ++ between ++ after →
      ∀ mark ∈ (Reader.follow reader before).mark?,
        ∃ later ∈ (Reader.follow reader (before ++ between)).mark?, mark ≤ later) ∧
    ∀ kind, scanned.outcome = .ok (some kind) →
      scanner.SoundRange source offset scanned.reader (scanned.reader.token kind) := by
  intro reader scanned
  constructor
  . intro before between after _ mark hmark
    apply ByteReader.exists_le_mark_follow_append rfl hmark
  . intro kind h
    apply soundRange_token
    exact (of_report_eq_ok h).1

theorem scan_within_source_two_quotes :
    let scanner : Scanner := {}
    let valid : TokenSet := .ofList [.stringStart]
    let text : String := .ofList ['\u00e9', '\n', ' ', 'r', 'b', '\x27', '\x27']
    let scanned := (scanner.scan (ByteReader.ofString text 2) valid).value
    scanned.outcome = .ok (some .stringStart) ∧
      scanned.reader.token .stringStart = ⟨.stringStart, 4, 7⟩ ∧ scanned.reader.position = 8 ∧
      scanner.SoundRange (Utf8.encode text.toList) 2 scanned.reader ⟨.stringStart, 4, 7⟩ ∧
      Utf8.IsBoundary text 4 ∧ Utf8.IsBoundary text 7 ∧ Utf8.IsBoundary text 8 := by
  intro scanner valid text scanned
  have hreader : scanned.reader = ⟨[], 8, 4, some 7⟩ := by
    simp only [scanned, text, ByteReader.ofString, String.toList_ofList]
    decide +kernel
  have houtcome : scanned.outcome = .ok (some .stringStart) := by
    simp only [scanned, text, ByteReader.ofString, String.toList_ofList]
    rfl
  have htoken : scanned.reader.token .stringStart = ⟨.stringStart, 4, 7⟩ := by
    rw [hreader]
    rfl
  have hsound := (scan_within_source scanner (Utf8.encode text.toList) 2 valid).2 _ houtcome
  replace hsound : scanner.SoundRange _ 2 scanned.reader (scanned.reader.token .stringStart) := hsound
  have horigin : Utf8.IsBoundary text (min 2 (Utf8.encode text.toList).length) := by
    refine ⟨['\u00e9'], ['\n', ' ', 'r', 'b', '\x27', '\x27'], ?_, ?_⟩
    . simp only [text, String.toList_ofList]
      rfl
    . simp only [text, String.toList_ofList]
      decide +kernel
  rw [htoken] at hsound
  obtain ⟨hstart, hstop, hlast, _⟩ := hsound.isBoundary text rfl horigin
  rw [hreader] at hlast
  exact ⟨houtcome, htoken, congrArg ByteReader.position hreader, hsound, hstart, hstop, hlast⟩

end Scanner

end Offside
