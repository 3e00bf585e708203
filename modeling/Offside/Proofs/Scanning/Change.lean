import Offside.Proofs.Scanning.WellFormed

/-!
This module contains the changes that a scan can make to the blocks and literals that are open, and
the proof that the kind of the token decides which of them a scan makes. A scan that declines makes
none.
-/

namespace Offside

inductive Change where
  | keep
  | openBlock (level : UInt32)
  | closeBlock (level : UInt32)
  | openLiteral (delimiter : Delimiter)
  | closeLiteral (delimiter : Delimiter)

namespace Change

def Between (before after : State) : Change → Prop
  | keep => after = before
  | openBlock level =>
    after.indents.toList = before.indents.toList ++ [level] ∧ after.delimiters = before.delimiters
  | closeBlock level =>
    before.indents.toList = after.indents.toList ++ [level] ∧ after.delimiters = before.delimiters
  | openLiteral delimiter =>
    after.delimiters.toList = before.delimiters.toList ++ [delimiter] ∧
      after.indents = before.indents
  | closeLiteral delimiter =>
    before.delimiters.toList = after.delimiters.toList ++ [delimiter] ∧
      after.indents = before.indents

theorem Between.unique {change : Change} {before lhs rhs : State}
    (hlhs : change.Between before lhs) (hrhs : change.Between before rhs) : lhs = rhs := by
  cases change with
  | keep => exact hlhs.trans hrhs.symm
  | openBlock level =>
    apply State.ext
    . exact Indentation.toList_inj.1 (hlhs.1.trans hrhs.1.symm)
    . exact hlhs.2.trans hrhs.2.symm
  | closeBlock level =>
    apply State.ext
    . exact Indentation.toList_inj.1 (List.append_cancel_right (hlhs.1.symm.trans hrhs.1))
    . exact hlhs.2.trans hrhs.2.symm
  | openLiteral delimiter =>
    apply State.ext
    . exact hlhs.2.trans hrhs.2.symm
    . exact Array.toList_inj.1 (hlhs.1.trans hrhs.1.symm)
  | closeLiteral delimiter =>
    apply State.ext
    . exact hlhs.2.trans hrhs.2.symm
    . exact Array.toList_inj.1 (List.append_cancel_right (hlhs.1.symm.trans hrhs.1))

inductive ComesWith (before : State) : Option TokenKind → Change → Prop
  | declined : ComesWith before none .keep
  | newline : ComesWith before (some .newline) .keep
  | indent {level : UInt32} (h : before.indents.top < level) :
    ComesWith before (some .indent) (.openBlock level)
  | dedent (h : 0 < before.indents.depth) :
    ComesWith before (some .dedent) (.closeBlock before.indents.top)
  | stringStart {delimiter : Delimiter} (h : Delimiter.ofBits? delimiter.bits = some delimiter) :
    ComesWith before (some .stringStart) (.openLiteral delimiter)
  | stringContent : ComesWith before (some .stringContent) .keep
  | stringEnd {delimiter : Delimiter} (h : before.delimiter? = some delimiter) :
    ComesWith before (some .stringEnd) (.closeLiteral delimiter)

end Change

namespace State

/--
The kinds that a scan may come to. Within a literal these are its text and its end, even if the end is
not among the kinds that are asked for. Everywhere else the kind is one of those, but neither of the
two.
-/
def Permits (state : State) (valid : TokenSet) (kind? : Option TokenKind) : Prop :=
  if .stringContent ∈ valid ∧ .indent ∉ valid ∧ state.delimiters ≠ #[] then
    kind? = none ∨ kind? = some .stringContent ∨ kind? = some .stringEnd
  else
    ∀ kind ∈ kind?, kind ∈ valid ∧ kind ≠ .stringContent ∧ kind ≠ .stringEnd

variable {state : State} {valid : TokenSet} {chars : List Char} {found : Found} {moves : List Move}

theorem permits_of_literal?_eq_some {delimiter : Delimiter} {kind? : Option TokenKind}
    (hliteral : state.literal? valid = some delimiter)
    (h : kind? = none ∨ kind? = some .stringContent ∨ kind? = some .stringEnd) :
    state.Permits valid kind? := by
  have hdelimiter := delimiter?_of_literal? hliteral
  unfold literal? at hliteral
  unfold Permits
  split at hliteral
  . next hvalid =>
    rw [if_pos]
    . exact h
    . refine ⟨hvalid.1, hvalid.2, ?_⟩
      rintro hempty
      simp [delimiter?, hempty] at hdelimiter
  . contradiction

theorem permits_of_literal?_eq_none {kind? : Option TokenKind}
    (hliteral : state.literal? valid = none)
    (h : ∀ kind ∈ kind?, kind ∈ valid ∧ kind ≠ .stringContent ∧ kind ≠ .stringEnd) :
    state.Permits valid kind? := by
  unfold literal? at hliteral
  unfold Permits
  rw [if_neg]
  . exact h
  . rintro ⟨hcontent, hindent, hopen⟩
    rw [if_pos ⟨hcontent, hindent⟩, delimiter?, Array.back?_eq_none_iff] at hliteral
    contradiction

theorem permits_none (state : State) (valid : TokenSet) : state.Permits valid none := by
  unfold Permits
  split <;> simp

theorem Finds.permits (h : Finds state valid chars found moves) :
    state.Permits valid (some found.kind) := by
  cases h with
  | newline _ hvalid hliteral =>
    apply permits_of_literal?_eq_none hliteral
    simpa [Found.kind] using hvalid
  | indent _ hvalid hliteral =>
    apply permits_of_literal?_eq_none hliteral
    simpa [Found.kind] using hvalid
  | dedent _ hvalid hliteral =>
    apply permits_of_literal?_eq_none hliteral
    simpa [Found.kind] using hvalid
  | stringStart _ _ hvalid hliteral =>
    apply permits_of_literal?_eq_none hliteral
    simpa [Found.kind] using hvalid
  | stringContent hliteral =>
    apply permits_of_literal?_eq_some hliteral
    simp [Found.kind]
  | stringEnd hliteral =>
    apply permits_of_literal?_eq_some hliteral
    simp [Found.kind]

def change (state : State) : Found → Change
  | .newline | .stringContent => .keep
  | .indent level => .openBlock level
  | .dedent => .closeBlock state.indents.top
  | .stringStart delimiter => .openLiteral delimiter
  | .stringEnd => state.delimiter?.elim .keep .closeLiteral

theorem change_congr {lhs rhs : State} (htop : lhs.indents.top = rhs.indents.top)
    (hdelimiter : lhs.delimiter? = rhs.delimiter?) (found : Found) :
    lhs.change found = rhs.change found := by
  unfold change
  rw [htop, hdelimiter]

theorem toList_delimiters_eq_append {delimiter : Delimiter}
    (h : state.delimiter? = some delimiter) :
    state.delimiters.toList = state.popDelimiter.delimiters.toList ++ [delimiter] := by
  rw [delimiter?, ← Array.getLast?_toList, List.getLast?_eq_some_iff] at h
  obtain ⟨outer, h⟩ := h
  rw [popDelimiter, Array.toList_pop, h, List.dropLast_concat]

theorem Finds.between (h : Finds state valid chars found moves) :
    (state.change found).Between state (state.apply found) := by
  cases h with
  | newline => rfl
  | stringContent => rfl
  | indent _ _ _ hlevel => exact ⟨toList_indents_apply_indent hlevel, rfl⟩
  | dedent _ _ _ hwidth => exact ⟨toList_indents_apply_dedent hwidth, rfl⟩
  | stringStart => exact ⟨Array.toList_push, rfl⟩
  | stringEnd hliteral =>
    have hdelimiter := delimiter?_of_literal? hliteral
    rw [change, hdelimiter]
    exact ⟨toList_delimiters_eq_append hdelimiter, rfl⟩

theorem Finds.comesWith (h : Finds state valid chars found moves) :
    (state.change found).ComesWith state (some found.kind) := by
  cases h with
  | newline => exact .newline
  | stringContent => exact .stringContent
  | indent _ _ _ hlevel => exact .indent hlevel
  | dedent _ _ _ hwidth =>
    apply Change.ComesWith.dedent
    have hlength := congrArg List.length (toList_indents_apply_dedent hwidth)
    have hsize := (state.apply .dedent).indents.one_le_size
    rw [List.length_append, Indentation.length_toList, Indentation.length_toList,
      List.length_singleton] at hlength
    rw [Indentation.depth]
    omega
  | @stringStart _ _ opening =>
    apply Change.ComesWith.stringStart
    apply Delimiter.ofBits?_bits opening.wellFormed_delimiter
  | stringEnd hliteral =>
    have hdelimiter := delimiter?_of_literal? hliteral
    rw [change, hdelimiter]
    exact .stringEnd hdelimiter

end State

namespace Scanner

variable {ρ : Type} [Reader ρ]

def report (scanner : Scanner) (kind? : Option TokenKind) : Except Violation (Option TokenKind) :=
  if scanner.options.checked then scanner.check.map fun _ => kind? else .ok kind?

theorem outcome_scan_eq_report (scanner : Scanner) (reader : ρ) (valid : TokenSet) :
    (scanner.scan reader valid).value.outcome
      =
    (scanner.scan reader valid).value.scanner.report
      ((scanner.walk valid (Reader.ahead reader)).value.map Found.kind) := rfl

theorem events_scan (scanner : Scanner) (reader : ρ) (valid : TokenSet) :
    (scanner.scan reader valid).events
      =
    (scanner.walk valid (Reader.ahead reader)).events ++
      [((scanner.walk valid (Reader.ahead reader)).value.map Found.kind).elim .declined .scanned] := rfl

theorem getLast?_events_scan (scanner : Scanner) (reader : ρ) (valid : TokenSet) :
    (scanner.scan reader valid).events.getLast?
      =
    some (((scanner.walk valid (Reader.ahead reader)).value.map Found.kind).elim .declined .scanned) := by
  rw [events_scan, List.getLast?_concat]

theorem state_scan (scanner : Scanner) (reader : ρ) (valid : TokenSet) :
    (scanner.scan reader valid).value.scanner.state
      =
    (scanner.walk valid (Reader.ahead reader)).value.elim scanner.state scanner.state.apply := rfl

theorem exists_change_scan (scanner : Scanner) (reader : ρ) (valid : TokenSet) :
    ∃ kind? change,
      (scanner.scan reader valid).events.getLast? = some (kind?.elim .declined .scanned) ∧
      (scanner.scan reader valid).value.outcome
        = (scanner.scan reader valid).value.scanner.report kind? ∧
      scanner.state.Permits valid kind? ∧
      Change.ComesWith scanner.state kind? change ∧
      change.Between scanner.state (scanner.scan reader valid).value.scanner.state := by
  rw [getLast?_events_scan, outcome_scan_eq_report, state_scan]
  cases hvalue : (scanner.walk valid (Reader.ahead reader)).value with
  | none => exact ⟨none, .keep, rfl, rfl, State.permits_none _ _, .declined, rfl⟩
  | some found =>
    have hfinds := State.finds_of_scan hvalue
    exact ⟨some found.kind, scanner.state.change found, rfl, rfl, hfinds.permits, hfinds.comesWith,
      hfinds.between⟩

end Scanner

end Offside
