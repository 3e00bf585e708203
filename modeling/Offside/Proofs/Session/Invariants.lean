import Offside.Proofs.Saving.Format
import Offside.Proofs.Scanning.Change
import Offside.Proofs.Session.Restoring

/-!
This module contains what holds of every scanner that can be reached: whatever is scanned, restored
or refused on the way, the check of its state does not fail, and it is of no account for the tokens
whether that check is made.
-/

namespace Offside

namespace ByteReader

theorem mark_le_position_follow {reader : ByteReader} (moves : List Move)
    (h : ∀ mark ∈ reader.mark?, mark ≤ reader.position) :
    ∀ mark ∈ (Reader.follow reader moves).mark?, mark ≤ (Reader.follow reader moves).position := by
  apply Reader.follow_inv (fun reader : ByteReader => ∀ mark ∈ reader.mark?, mark ≤ reader.position)
  . intro next _ reader h
    have hconsume : ∀ mark ∈ reader.consume.mark?, mark ≤ reader.consume.position := by
      unfold consume
      split
      . exact h
      . intro mark hmark
        apply Nat.le_add_right_of_le
        apply h mark hmark
    cases next with
    | consume => exact hconsume
    | skip =>
      simp only [Reader.move, skip]
      split
      . exact h
      . exact hconsume
    | mark => simp [Reader.move, mark]
  . exact h

end ByteReader

namespace Scanner

theorem check_eq_ok_iff {scanner : Scanner} : scanner.check = .ok () ↔ scanner.state.WellFormed := by
  unfold check
  constructor
  . intro h
    cases hmalformed : scanner.state.malformed? with
    | none =>
      rw [State.malformed?, Array.find?_eq_none] at hmalformed
      intro delimiter hmem
      simpa using hmalformed delimiter hmem
    | some => simp [hmalformed] at h
  . intro h
    rw [State.malformed?_eq_none h]

theorem check_eq_error_iff {scanner : Scanner} {delimiter : Delimiter} :
    scanner.check = .error { delimiter } ↔
      ∃ before after, scanner.state.delimiters.toList = before ++ delimiter :: after ∧
        (∀ outer ∈ before, outer.WellFormed) ∧ ¬ delimiter.WellFormed := by
  have hcheck : scanner.check = .error { delimiter } ↔ scanner.state.malformed? = some delimiter := by
    unfold check
    split <;> simp_all
  rw [hcheck, State.malformed?, ← Array.find?_toList, List.find?_eq_some_iff_append]
  constructor
  . rintro ⟨hmalformed, before, after, hlist, hbefore⟩
    exact ⟨before, after, hlist, by simpa using hbefore, by simpa using hmalformed⟩
  . rintro ⟨before, after, hlist, hbefore, hmalformed⟩
    exact ⟨by simpa using hmalformed, before, after, hlist, by simpa using hbefore⟩

theorem report_of_wellFormed {scanner : Scanner} (h : scanner.state.WellFormed)
    (kind? : Option TokenKind) : scanner.report kind? = .ok kind? := by
  unfold report
  rw [check_eq_ok_iff.2 h]
  split <;> rfl

theorem isSome_quote?_of_walk {scanner : Scanner} {valid : TokenSet} {chars : List Char}
    {delimiter : Delimiter} (h : (scanner.walk valid chars).value = some (.stringStart delimiter)) :
    delimiter.quote?.isSome = true := by
  have hfinds := State.finds_of_scan h
  generalize (scanner.state.scan scanner.options.tabWidth valid chars).moves = moves at hfinds
  cases hfinds with
  | stringStart =>
    rw [Literal.Opening.quote?_delimiter]
    rfl

end Scanner

namespace Session

inductive Operation : Type 1 where
  | new (options : Options)
  | scan {ρ : Type} [Reader ρ] (reader : ρ) (valid : TokenSet)
  | restore (bytes : List UInt8)
  | reset
  | withState (options : Options) (state : State)

namespace Operation

def perform (scanner : Scanner) : Operation → Scanner
  | new options => { options }
  | scan reader valid => (scanner.scan reader valid).value.scanner
  | restore bytes =>
    match (scanner.restore bytes).value with
    | .ok restored => restored
    | .error _ => scanner
  | reset => scanner.reset
  | withState options state => { options, state }

def Accepted : Operation → Prop
  | withState _ state => ∀ delimiter ∈ state.delimiters, Delimiter.ofBits? delimiter.bits = some delimiter
  | _ => True

theorem wellFormed_perform {operation : Operation} {scanner : Scanner}
    (hoperation : operation.Accepted) (h : scanner.state.WellFormed) :
    (operation.perform scanner).state.WellFormed := by
  cases operation with
  | new => simp [perform, State.WellFormed]
  | scan reader valid => apply Scanner.wellFormed_scan _ _ h
  | restore bytes =>
    rw [perform, Scanner.value_restore]
    cases hdecode : State.decode bytes scanner.options.capacity with
    | error => exact h
    | ok state =>
      intro delimiter hmem
      rw [Delimiter.wellFormed_iff_isFlags]
      apply State.isFlags_of_decode hdecode delimiter hmem
  | reset => simp [perform, Scanner.reset, Scanner.withState, State.WellFormed]
  | withState options state =>
    intro delimiter hmem
    exact (Delimiter.ofBits?_eq_some_iff.1 (hoperation delimiter hmem)).2

theorem wellFormed_foldl {operations : List Operation} {scanner : Scanner}
    (hoperations : ∀ operation ∈ operations, operation.Accepted) (h : scanner.state.WellFormed) :
    (operations.foldl perform scanner).state.WellFormed := by
  induction operations generalizing scanner with
  | nil => exact h
  | cons operation operations ih =>
    rw [List.forall_mem_cons] at hoperations
    rw [List.foldl_cons]
    apply ih hoperations.2
    apply wellFormed_perform hoperations.1 h

end Operation

/--
What holds of a scanner that may have been given any delimiters. Its margins are in order, the check
tells the outermost delimiter that no open literal has, and a reset leads back to the start by closing
all blocks. No scan opens a literal without a quote or marks a place in front of an earlier mark.
-/
structure Orderly (scanner : Scanner) : Prop where
  isStack : Indentation.IsStack scanner.state.indents.toList
  check_ok : scanner.check = .ok () ↔
    ∀ delimiter ∈ scanner.state.delimiters, Delimiter.ofBits? delimiter.bits = some delimiter
  check_error : ∀ delimiter, scanner.check = .error { delimiter } ↔
    ∃ before after, scanner.state.delimiters.toList = before ++ delimiter :: after ∧
      (∀ outer ∈ before, Delimiter.ofBits? outer.bits = some outer) ∧
      Delimiter.ofBits? delimiter.bits = none
  reset : scanner.reset = { options := scanner.options } ∧
    scanner.reset.state.indents.toList = scanner.state.indents.toList.take 1
  opens : ∀ valid chars delimiter,
    (scanner.walk valid chars).value = some (.stringStart delimiter) →
    delimiter.quote?.isSome = true
  marks : ∀ source offset earlier valid before after,
    let reader := Reader.follow (ByteReader.ofBytes source offset) earlier
    (scanner.walk valid (Reader.ahead reader)).moves = before ++ .mark :: after →
    ∀ mark ∈ (Reader.follow reader before).mark?, mark ≤ (Reader.follow reader before).position

theorem orderly (scanner : Scanner) : Orderly scanner where
  isStack := scanner.state.indents.isStack_toList
  check_ok := by
    rw [Scanner.check_eq_ok_iff]
    simp [State.WellFormed, Delimiter.ofBits?_eq_some_iff]
  check_error := by
    intro delimiter
    rw [Scanner.check_eq_error_iff]
    simp [Delimiter.ofBits?_eq_some_iff, Delimiter.ofBits?_eq_none_iff]
  reset := by
    constructor
    . rfl
    . rw [scanner.state.indents.toList_eq_cons]
      rfl
  opens _ _ _ := Scanner.isSome_quote?_of_walk
  marks := by
    intro source offset earlier valid before after reader _
    apply ByteReader.mark_le_position_follow
    apply ByteReader.mark_le_position_follow
    simp [ByteReader.ofBytes]

structure Sound (scanner : Scanner) : Prop where
  wellFormed : scanner.state.WellFormed
  check : scanner.check = .ok ()
  unaffected : ∀ {ρ : Type} [Reader ρ] (reader : ρ) (valid : TokenSet) (checked : Bool),
    let other : Scanner := { scanner with options := { scanner.options with checked } }
    (other.scan reader valid).value.outcome = (scanner.scan reader valid).value.outcome ∧
      (other.scan reader valid).value.scanner.state
        = (scanner.scan reader valid).value.scanner.state ∧
      (other.scan reader valid).value.reader = (scanner.scan reader valid).value.reader

theorem sound_of_wellFormed {scanner : Scanner} (h : scanner.state.WellFormed) : Sound scanner where
  wellFormed := h
  check := Scanner.check_eq_ok_iff.2 h
  unaffected := by
    intro ρ _ reader valid checked other
    have hother : other.state.WellFormed := h
    refine ⟨?_, rfl, rfl⟩
    rw [Scanner.outcome_scan_eq_report, Scanner.outcome_scan_eq_report]
    rw [Scanner.report_of_wellFormed (Scanner.wellFormed_scan _ _ hother)]
    rw [Scanner.report_of_wellFormed (Scanner.wellFormed_scan _ _ h)]
    rfl

theorem invariants_of_operations (options : Options) (operations : List Operation) :
    Orderly (operations.foldl Operation.perform { options }) ∧
      ((∀ operation ∈ operations, operation.Accepted) →
        Sound (operations.foldl Operation.perform { options })) := by
  constructor
  . apply orderly
  . intro haccepted
    apply sound_of_wellFormed
    apply Operation.wellFormed_foldl haccepted
    simp [State.WellFormed]

theorem sound_after_refused_restore :
    let source := "\n  rb'''"
    let operations : List Operation :=
      [
        .withState { checked := true } { delimiters := #[⟨0x22⟩] },
        .scan (ByteReader.ofString source 0) (.ofList [.newline, .indent]),
        .scan (ByteReader.ofString source 3) (.ofList [.newline, .stringStart]),
        .restore [0x01, 0x03],
        .scan (ByteReader.ofString source 8) (.ofList [.stringContent, .stringEnd]),
        .restore [0x01, 0x11, 0x04]
      ]
    (∀ operation ∈ operations, operation.Accepted) ∧
      Sound (operations.foldl Operation.perform { options := {} }) := by
  intro source operations
  have haccepted : ∀ operation ∈ operations, operation.Accepted := by
    simp only [operations, List.forall_mem_cons]
    refine ⟨?_, trivial, trivial, trivial, trivial, trivial, by simp⟩
    simp only [Operation.Accepted]
    decide
  exact ⟨haccepted, (invariants_of_operations {} operations).2 haccepted⟩

end Session

end Offside
