import Offside.Proofs.Scanning.Determined
import Offside.Proofs.Session.Invariants

/-!
This module contains what the check of a scanner makes of its answers.
-/

namespace Offside

namespace Scanner

def Passes (scanner : Scanner) : Prop :=
  scanner.options.checked = true → scanner.state.WellFormed

def unlessMalformed {α : Type} (scanner : Scanner) (answer : α) : Except Violation α :=
  if scanner.options.checked then scanner.check.map fun _ => answer else .ok answer

variable {scanner next : Scanner} {kind? other : Option TokenKind} {α : Type}

theorem report_eq_unlessMalformed : scanner.report kind? = scanner.unlessMalformed kind? := rfl

theorem unlessMalformed_of_passes (h : scanner.Passes) (answer : α) :
    scanner.unlessMalformed answer = .ok answer := by
  unfold unlessMalformed
  split
  . next hchecked => rw [check_eq_ok_iff.2 (h hchecked)]; rfl
  . rfl

theorem unlessMalformed_of_not_passes (h : ¬ scanner.Passes) :
    ∃ violation, ∀ {α : Type} (answer : α), scanner.unlessMalformed answer = .error violation := by
  unfold Passes at h
  rw [Classical.not_imp, ← check_eq_ok_iff] at h
  cases hcheck : scanner.check with
  | ok => exact absurd hcheck h.2
  | error violation =>
    refine ⟨violation, ?_⟩
    intro α answer
    rw [unlessMalformed, if_pos h.1, hcheck]
    rfl

theorem unlessMalformed_congr (hchecked : next.options.checked = scanner.options.checked)
    (hmalformed : next.state.malformed? = scanner.state.malformed?) (answer : α) :
    next.unlessMalformed answer = scanner.unlessMalformed answer := by
  unfold unlessMalformed check
  rw [hchecked, hmalformed]

theorem of_report_eq_ok (h : scanner.report kind? = .ok other) :
    kind? = other ∧ scanner.Passes := by
  rw [report_eq_unlessMalformed] at h
  by_cases hpasses : scanner.Passes
  . rw [unlessMalformed_of_passes hpasses] at h
    exact ⟨Except.ok.inj h, hpasses⟩
  . obtain ⟨violation, hviolation⟩ := unlessMalformed_of_not_passes hpasses
    rw [hviolation] at h
    contradiction

theorem Passes.scan {ρ : Type} [Reader ρ] (h : scanner.Passes) (reader : ρ) (valid : TokenSet) :
    (scanner.scan reader valid).value.scanner.Passes := by
  intro hchecked
  apply wellFormed_scan
  exact h hchecked

theorem outcome_of_gives {reader : ByteReader} {valid : TokenSet} {answer? : Option Answer}
    (hpasses : scanner.Passes) (hgives : scanner.Gives reader valid answer?) :
    (scanner.scan reader valid).value.outcome = .ok (answer?.map Answer.kind) := by
  rw [hgives.outcome]
  apply unlessMalformed_of_passes (hpasses.scan reader valid)

end Scanner

end Offside
