import Offside.Proofs.Scanning.Finds

/-!
This module contains what a token changes in the state of a scanner, and the proof that scans leave
only delimiters of open literals behind, so that the check of a state never fails.
-/

namespace Offside

namespace State

theorem toList_indents_apply_indent {state : State} {level : UInt32}
    (h : state.indents.top < level) :
    (state.apply (.indent level)).indents.toList = state.indents.toList ++ [level] := by
  have hpush : state.indents.push? level = some (state.indents.push level h) := by
    rw [Indentation.push?, dif_pos h]
  rw [apply, hpush]
  apply Indentation.toList_push h

theorem toList_indents_apply_dedent {state : State} {width : UInt32}
    (h : width < state.indents.top) :
    state.indents.toList = (state.apply .dedent).indents.toList ++ [state.indents.top] := by
  rw [apply]
  cases hpop : state.indents.pop? with
  | none =>
    have hlist := state.indents.toList_eq_cons
    have htop := state.indents.getLast?_toList
    have hlength := state.indents.length_blocks
    rw [Indentation.pop?_eq_none_iff.1 hpop, List.length_eq_zero_iff] at hlength
    rw [hlist, hlength, List.getLast?_singleton, Option.some.injEq] at htop
    rw [← htop] at h
    exact absurd h (UInt32.not_lt_zero)
  | some popped =>
    obtain ⟨level, outer⟩ := popped
    have hlist := Indentation.pop?_eq_some_iff.1 hpop
    have htop := state.indents.getLast?_toList
    rw [hlist, List.getLast?_concat, Option.some.injEq] at htop
    rw [← htop]
    exact hlist

def WellFormed (state : State) : Prop :=
  ∀ delimiter ∈ state.delimiters, delimiter.WellFormed

instance (state : State) : Decidable state.WellFormed :=
  inferInstanceAs (Decidable (∀ delimiter ∈ state.delimiters, delimiter.WellFormed))

theorem malformed?_eq_none {state : State} (h : state.WellFormed) : state.malformed? = none := by
  unfold malformed?
  rw [Array.find?_eq_none]
  intro delimiter hmem
  simpa using h delimiter hmem

variable {state : State} {valid : TokenSet} {chars : List Char} {found : Found} {moves : List Move}

theorem Finds.wellFormed (hfinds : Finds state valid chars found moves) (h : state.WellFormed) :
    (state.apply found).WellFormed := by
  cases hfinds with
  | newline => exact h
  | indent => exact h
  | dedent => exact h
  | stringContent => exact h
  | @stringStart skipped looked opening =>
    intro delimiter hmem
    rw [apply, pushDelimiter, Array.mem_push] at hmem
    cases hmem with
    | inl hmem => exact h delimiter hmem
    | inr heq =>
      rw [heq]
      apply opening.wellFormed_delimiter
  | stringEnd =>
    intro delimiter hmem
    apply h
    rw [apply, popDelimiter, ← Array.mem_toList_iff, Array.toList_pop] at hmem
    apply Array.mem_toList_iff.1
    apply (List.dropLast_sublist _).mem hmem

end State

namespace Scanner

variable {ρ : Type} [Reader ρ]

def walk (scanner : Scanner) (valid : TokenSet) (chars : List Char) : Walk (Option Found) :=
  scanner.state.scan scanner.options.tabWidth valid chars

theorem reader_scan (scanner : Scanner) (reader : ρ) (valid : TokenSet) :
    (scanner.scan reader valid).value.reader
      =
    Reader.follow reader (scanner.walk valid (Reader.ahead reader)).moves := rfl

theorem scan_eq_of_ahead_eq {σ : Type} [Reader σ] (scanner : Scanner) {lhs : ρ} {rhs : σ}
    (valid : TokenSet) (h : Reader.ahead lhs = Reader.ahead rhs) :
    (scanner.scan lhs valid).value.outcome = (scanner.scan rhs valid).value.outcome ∧
      (scanner.scan lhs valid).value.scanner = (scanner.scan rhs valid).value.scanner ∧
      (scanner.scan lhs valid).events = (scanner.scan rhs valid).events := by
  unfold scan
  rw [h]
  exact ⟨rfl, rfl, rfl⟩

theorem scan_cases {scanner : Scanner} (reader : ρ) (valid : TokenSet)
    (h : scanner.state.WellFormed) :
    (scanner.walk valid (Reader.ahead reader)).value = none ∧
      (scanner.scan reader valid).value.outcome = .ok none ∧
      (scanner.scan reader valid).value.scanner = scanner ∨
    ∃ found, (scanner.walk valid (Reader.ahead reader)).value = some found ∧
      scanner.state.Finds valid (Reader.ahead reader) found
        (scanner.walk valid (Reader.ahead reader)).moves ∧
      (scanner.scan reader valid).value.outcome = .ok (some found.kind) ∧
      (scanner.scan reader valid).value.scanner
        = scanner.withState (scanner.state.apply found) := by
  unfold scan
  cases hvalue : (scanner.walk valid (Reader.ahead reader)).value with
  | none =>
    rw [walk] at hvalue
    refine .inl ⟨rfl, ?_, ?_⟩
    . simp [hvalue, check, State.malformed?_eq_none h, Except.map]
    . simp [hvalue]
  | some found =>
    rw [walk] at hvalue
    have hfinds := State.finds_of_scan hvalue
    have hnext := hfinds.wellFormed h
    refine .inr ⟨found, rfl, hfinds, ?_, ?_⟩
    . simp [hvalue, check, State.malformed?_eq_none hnext, Except.map]
    . simp [hvalue, withState]

theorem wellFormed_scan {scanner : Scanner} (reader : ρ) (valid : TokenSet)
    (h : scanner.state.WellFormed) :
    (scanner.scan reader valid).value.scanner.state.WellFormed := by
  obtain ⟨_, _, hscanner⟩ | ⟨found, _, hfinds, _, hscanner⟩ := scan_cases reader valid h
  . rw [hscanner]
    exact h
  . rw [hscanner]
    apply hfinds.wellFormed h

theorem options_scan (scanner : Scanner) (reader : ρ) (valid : TokenSet) :
    (scanner.scan reader valid).value.scanner.options = scanner.options := rfl

end Scanner

end Offside
