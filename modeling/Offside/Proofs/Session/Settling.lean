import Offside.Proofs.Scanning.Determined

/-!
This module contains the proof that scans from the same place settle the blocks: one after the other
they close all blocks that are too deep, open at most one, and leave the blocks as they are from then
on.
-/

namespace Offside

namespace Blanks

/--
The margin of the deepest block that these blanks keep open. A comment keeps the blocks open that it is
indented like.
-/
def bound (blanks : Blanks) : UInt32 :=
  blanks.comment?.elim blanks.width (max blanks.width)

variable {blanks : Blanks} {top : UInt32}

theorem bound_lt_iff :
    blanks.bound < top ↔ blanks.width < top ∧ blanks.comment?.all (· < top) = true := by
  unfold bound
  cases blanks.comment? with
  | none => simp
  | some width =>
    simp only [Option.elim_some, Option.all_some, decide_eq_true_eq, max]
    split <;> grind

theorem width_le_bound : blanks.width ≤ blanks.bound := by
  unfold bound
  cases blanks.comment? with
  | none => apply UInt32.le_refl
  | some width =>
    simp only [Option.elim_some, max]
    split <;> grind

end Blanks

namespace Indentation

variable {indents : Indentation} {bound : UInt32}

theorem filter_append_filter (indents : Indentation) (bound : UInt32) :
    indents.toList.filter (· ≤ bound) ++ indents.toList.filter (bound < ·) = indents.toList := by
  have hpairwise := indents.isStack_toList.2
  generalize indents.toList = levels at hpairwise ⊢
  induction levels with
  | nil => rfl
  | cons level levels ih =>
    rw [List.pairwise_cons] at hpairwise
    by_cases hlevel : level ≤ bound
    . rw [List.filter_cons_of_pos (by simpa using hlevel),
        List.filter_cons_of_neg (by simpa using hlevel), List.cons_append, ih hpairwise.2]
    . have habove : ∀ other ∈ level :: levels, bound < other := by
        grind
      rw [List.filter_eq_nil_iff.2 (by simpa using habove), List.filter_eq_self.2 (by simpa using habove),
        List.nil_append]

theorem top_lt_iff_not_mem {inner : Indentation}
    (h : indents.toList = inner.toList.filter (· ≤ bound)) :
    indents.top < bound ↔ bound ∉ inner.toList := by
  have htop := List.mem_of_getLast? indents.getLast?_toList
  constructor
  . intro hlt hmem
    have hle : bound ≤ indents.top := by
      apply le_top
      rw [h]
      simp [hmem]
    exact UInt32.not_lt.2 hle hlt
  . intro hmem
    rw [h, List.mem_filter, decide_eq_true_eq] at htop
    apply UInt32.lt_of_le_of_ne htop.2
    intro heq
    rw [heq] at htop
    exact hmem htop.1

theorem top_eq_of_toList_eq {outer : List UInt32} {level : UInt32}
    (h : indents.toList = outer ++ [level]) : indents.top = level := by
  have hlast := indents.getLast?_toList
  rw [h, List.getLast?_concat, Option.some.injEq] at hlast
  exact hlast.symm

theorem top_le_of_forall (h : ∀ level ∈ indents.toList, level ≤ bound) : indents.top ≤ bound := by
  apply h
  apply List.mem_of_getLast? indents.getLast?_toList

end Indentation

namespace Layout

variable {top : UInt32} {valid : TokenSet} {blanks : Blanks}

theorem line?_of_bound_lt (hvalid : .dedent ∈ valid) (h : blanks.bound < top) :
    line? top valid blanks = some .dedent := by
  have hwidth : ¬ top < blanks.width := by
    have := (Blanks.bound_lt_iff.1 h).1
    grind
  rw [line?, if_neg fun hindent => hwidth hindent.2, if_pos ⟨hvalid, Blanks.bound_lt_iff.1 h⟩]

theorem line?_of_lt_width (hvalid : .indent ∈ valid) (h : top < blanks.width) :
    line? top valid blanks = some (.indent blanks.width) := by
  rw [line?, if_pos ⟨hvalid, h⟩]

theorem eq_newline_of_line? {found : Found} (hwidth : ¬ (.indent ∈ valid ∧ top < blanks.width))
    (hbound : ¬ blanks.bound < top) (h : line? top valid blanks = some found) : found = .newline := by
  rw [Blanks.bound_lt_iff] at hbound
  obtain ⟨_, hindent⟩ | ⟨rfl, hvalid, hdedent⟩ | ⟨rfl, _⟩ := line?_eq_some h
  . exact absurd hindent hwidth
  . rw [line?, if_neg hwidth, if_neg fun hall => hbound hall.2] at h
    split at h <;> contradiction
  . rfl

variable {tabWidth : UInt32} {chars rest : List Char} {state : State}

theorem yields_of_line? {found : Found}
    (hskip : (Blanks.skip tabWidth false {} chars).value = some (blanks, rest))
    (hcrossed : blanks.crossedLine = true) (h : line? top valid blanks = some found) :
    (scan tabWidth top valid chars).Yields state chars
      (some ⟨found.kind, state.change found, 0, 0⟩) := by
  have hscan : scan tabWidth top valid chars
      = { value := some found, moves := .mark :: (Blanks.skip tabWidth false {} chars).moves } := by
    rw [scan, hskip]
    dsimp only
    rw [if_pos hcrossed, h]
  rw [hscan]
  apply yields_line rfl
  rw [← Blanks.moves_skip_eq]

theorem of_scan_eq_some {found : Found}
    (hskip : (Blanks.skip tabWidth false {} chars).value = some (blanks, rest))
    (h : (scan tabWidth top valid chars).value = some found) :
    line? top valid blanks = some found ∨ found.kind = .stringStart := by
  rw [scan, hskip] at h
  dsimp only at h
  split at h
  . next other hline =>
    split at hline
    . rw [hline]
      exact .inl h
    . contradiction
  . split at h
    . rw [Walk.value_after] at h
      obtain ⟨_, _, _, _, rfl, _⟩ := Literal.exists_opening_of_scanStart h
      exact .inr rfl
    . contradiction

end Layout

namespace State

theorem literal?_congr {lhs rhs : State} (h : lhs.delimiters = rhs.delimiters) (valid : TokenSet) :
    lhs.literal? valid = rhs.literal? valid := by
  rw [literal?, literal?, delimiter?, delimiter?, h]

theorem indents_apply {state : State} {found : Found} (hindent : found.kind ≠ .indent)
    (hdedent : found.kind ≠ .dedent) : (state.apply found).indents = state.indents := by
  cases found with
  | indent => contradiction
  | dedent => contradiction
  | _ => rfl

end State

namespace Scanner

def rescanned {ρ : Type} [Reader ρ] (reader : ρ) (valid : TokenSet) :
    (count : Nat) → Scanner → Scanner
  | 0, scanner => scanner
  | count + 1, scanner => rescanned reader valid count (scanner.scan reader valid).value.scanner

def KeepsBlocks (scanner : Scanner) (reader : ByteReader) (valid : TokenSet) : Prop :=
  (∃ answer?, scanner.Gives reader valid answer? ∧
    ∀ answer ∈ answer?, answer.kind ≠ .indent ∧ answer.kind ≠ .dedent) ∧
  (scanner.scan reader valid).value.scanner.state.indents = scanner.state.indents

variable {scanner : Scanner} {valid : TokenSet} {source : List UInt8} {offset : Nat}
  {blanks : Blanks} {rest : List Char}

theorem keepsBlocks_of_walk
    (h : ∀ found ∈ (scanner.walk valid (Reader.ahead (ByteReader.ofBytes source offset))).value,
      found.kind ≠ .indent ∧ found.kind ≠ .dedent) :
    scanner.KeepsBlocks (ByteReader.ofBytes source offset) valid := by
  obtain ⟨answer?, hgives⟩ := exists_gives scanner source offset valid
  constructor
  . refine ⟨answer?, hgives, ?_⟩
    rintro answer rfl
    obtain ⟨found, hfound, hkind⟩ := Option.map_eq_some_iff.1 hgives.kind_eq.symm
    rw [← hkind]
    exact h found hfound
  . rw [state_scan]
    cases hvalue : (scanner.walk valid (Reader.ahead (ByteReader.ofBytes source offset))).value with
    | none => rfl
    | some found =>
      obtain ⟨hindent, hdedent⟩ := h found hvalue
      exact State.indents_apply hindent hdedent

section Settled

variable (hskip : (Blanks.skip scanner.options.tabWidth false {}
    (Reader.ahead (ByteReader.ofBytes source offset))).value = some (blanks, rest))
  (hwidth : ¬ (.indent ∈ valid ∧ scanner.state.indents.top < blanks.width))
  (hbound : ¬ blanks.bound < scanner.state.indents.top)
include hskip hwidth hbound

theorem keepsBlocks_of_settled : scanner.KeepsBlocks (ByteReader.ofBytes source offset) valid := by
  apply keepsBlocks_of_walk
  intro found hfound
  cases hliteral : scanner.state.literal? valid with
  | some delimiter =>
    have hfinds := State.finds_of_scan hfound
    generalize (scanner.state.scan scanner.options.tabWidth valid _).moves = moves at hfinds
    cases hfinds <;> simp_all [Found.kind]
  | none =>
    rw [walk, State.scan_of_literal?_eq_none hliteral] at hfound
    obtain hline | hstart := Layout.of_scan_eq_some hskip hfound
    . obtain rfl := Layout.eq_newline_of_line? hwidth hbound hline
      decide
    . rw [hstart]
      decide

theorem keepsBlocks_rescanned (count : Nat) :
    (rescanned (ByteReader.ofBytes source offset) valid count scanner).KeepsBlocks
        (ByteReader.ofBytes source offset) valid ∧
      (rescanned (ByteReader.ofBytes source offset) valid count scanner).state.indents
        = scanner.state.indents := by
  induction count generalizing scanner with
  | zero => exact ⟨keepsBlocks_of_settled hskip hwidth hbound, rfl⟩
  | succ count ih =>
    obtain ⟨_, hindents⟩ := keepsBlocks_of_settled hskip hwidth hbound
    have hnext := @ih (scanner.scan (ByteReader.ofBytes source offset) valid).value.scanner hskip
    rw [hindents] at hnext
    exact hnext hwidth hbound

end Settled

theorem rescanned_add {ρ : Type} [Reader ρ] (reader : ρ) (valid : TokenSet) (count more : Nat)
    (scanner : Scanner) :
    rescanned reader valid (count + more) scanner
      =
    rescanned reader valid more (rescanned reader valid count scanner) := by
  induction count generalizing scanner with
  | zero => rw [Nat.zero_add, rescanned]
  | succ count ih => rw [Nat.succ_add, rescanned, rescanned, ih]

theorem options_rescanned {ρ : Type} [Reader ρ] (reader : ρ) (valid : TokenSet) (count : Nat)
    (scanner : Scanner) : (rescanned reader valid count scanner).options = scanner.options := by
  induction count generalizing scanner with
  | zero => rfl
  | succ count ih => rw [rescanned, ih, options_scan]

section Closing

variable (hskip : (Blanks.skip scanner.options.tabWidth false {}
    (Reader.ahead (ByteReader.ofBytes source offset))).value = some (blanks, rest))
  (hcrossed : blanks.crossedLine = true) (hliteral : scanner.state.literal? valid = none)
include hskip hcrossed hliteral

theorem gives_line {found : Found}
    (h : Layout.line? scanner.state.indents.top valid blanks = some found) :
    scanner.Gives (ByteReader.ofBytes source offset) valid
      (some ⟨found.kind, scanner.state.change found, 0, 0⟩) := by
  have hyields := @Layout.yields_of_line? _ _ _ _ _ _ scanner.state _ hskip hcrossed h
  rw [← State.scan_of_literal?_eq_none hliteral] at hyields
  exact gives_of_yields hyields

theorem closes_blocks {kept above : List UInt32} (hvalid : .dedent ∈ valid)
    (hlevels : scanner.state.indents.toList = kept ++ above)
    (habove : ∀ level ∈ above, blanks.bound < level) :
    let after := fun count => rescanned (ByteReader.ofBytes source offset) valid count scanner
    (∀ count < above.length, (after count).Gives (ByteReader.ofBytes source offset) valid
      (some ⟨.dedent, .closeBlock (after count).state.indents.top, 0, 0⟩)) ∧
    (after above.length).state.indents.toList = kept ∧
    (after above.length).state.literal? valid = none := by
  intro after
  -- Each scan closes the innermost block, and the induction is on those that are left
  induction hcount : above.length generalizing above scanner with
  | zero =>
    obtain rfl := List.length_eq_zero_iff.1 hcount
    rw [List.append_nil] at hlevels
    exact ⟨by simp, hlevels, hliteral⟩
  | succ count ih =>
    obtain rfl | ⟨inner, top, rfl⟩ := above.eq_nil_or_concat
    . contradiction
    . rw [List.concat_eq_append] at hlevels habove hcount
      rw [← List.append_assoc] at hlevels
      have htop := Indentation.top_eq_of_toList_eq hlevels
      have hline : Layout.line? scanner.state.indents.top valid blanks = some .dedent := by
        apply Layout.line?_of_bound_lt hvalid
        rw [htop]
        apply habove
        simp
      have hgives := gives_line hskip hcrossed hliteral hline
      obtain ⟨hpop, hdelimiters⟩ := hgives.change
      rw [hlevels, htop] at hpop
      obtain ⟨hcloses, hkept⟩ :=
        @ih (scanner.scan (ByteReader.ofBytes source offset) valid).value.scanner hskip
          ((State.literal?_congr hdelimiters valid).trans hliteral) inner
          (List.append_cancel_right hpop).symm (fun level hmem => habove level (by simp [hmem]))
          (by simpa using hcount)
      refine ⟨?_, hkept⟩
      intro index hindex
      cases index with
      | zero => exact hgives
      | succ index => exact hcloses index (Nat.lt_of_succ_lt_succ hindex)

theorem opens_block (hvalid : .indent ∈ valid)
    (hwidth : scanner.state.indents.top < blanks.width) :
    let reader := ByteReader.ofBytes source offset
    let next := (scanner.scan reader valid).value.scanner
    scanner.Gives reader valid (some ⟨.indent, .openBlock blanks.width, 0, 0⟩) ∧
    ∀ count, (rescanned reader valid count next).KeepsBlocks reader valid ∧
      (rescanned reader valid count next).state.indents.toList
        = scanner.state.indents.toList ++ [blanks.width] := by
  intro reader next
  have hline := Layout.line?_of_lt_width hvalid hwidth
  have hgives := gives_line hskip hcrossed hliteral hline
  have hlevels : next.state.indents.toList = scanner.state.indents.toList ++ [blanks.width] :=
    hgives.change.1
  have htop := Indentation.top_eq_of_toList_eq hlevels
  -- The new block has the margin of the line, so that nothing remains to be done
  have hbound : ¬ blanks.bound < next.state.indents.top := by
    rw [htop, UInt32.not_lt]
    exact Blanks.width_le_bound
  refine ⟨hgives, ?_⟩
  intro count
  rw [← hlevels]
  have hnext := @keepsBlocks_rescanned next valid source offset blanks rest hskip
    (by simp [htop]) hbound count
  exact ⟨hnext.1, congrArg Indentation.toList hnext.2⟩

theorem settles_of_top_le {reader : ByteReader} (hreader : reader = .ofBytes source offset)
    (hbound : ¬ blanks.bound < scanner.state.indents.top) :
    if .indent ∈ valid ∧ scanner.state.indents.top < blanks.width then
      scanner.Gives reader valid (some ⟨.indent, .openBlock blanks.width, 0, 0⟩) ∧
        ∀ count > 0, (rescanned reader valid count scanner).KeepsBlocks reader valid ∧
          (rescanned reader valid count scanner).state.indents.toList
            = scanner.state.indents.toList ++ [blanks.width]
    else
      ∀ count, (rescanned reader valid count scanner).KeepsBlocks reader valid ∧
        (rescanned reader valid count scanner).state.indents.toList
          = scanner.state.indents.toList := by
  subst hreader
  split
  . next hopens =>
    obtain ⟨hgives, hlater⟩ := opens_block hskip hcrossed hliteral hopens.1 hopens.2
    refine ⟨hgives, ?_⟩
    intro count hcount
    obtain ⟨count, rfl⟩ := Nat.exists_eq_add_one.2 hcount
    exact hlater count
  . next hopens =>
    intro count
    obtain ⟨hkeeps, hindents⟩ := keepsBlocks_rescanned hskip hopens hbound count
    exact ⟨hkeeps, congrArg Indentation.toList hindents⟩

end Closing

theorem blocks_settle {blanks : Blanks} {rest : List Char} (hvalid : .dedent ∈ valid)
    (hopen : .stringContent ∉ valid ∨ .indent ∈ valid ∨ scanner.state.delimiter? = none)
    (hskip : (Blanks.skip scanner.options.tabWidth false {}
      (Reader.ahead (ByteReader.ofBytes source offset))).value = some (blanks, rest))
    (hcrossed : blanks.crossedLine = true) :
    let reader := ByteReader.ofBytes source offset
    let after := fun count => rescanned reader valid count scanner
    let margins := fun count => (after count).state.indents.toList
    let levels := scanner.state.indents.toList
    let kept := levels.filter (· ≤ blanks.bound)
    let closed := (levels.filter (blanks.bound < ·)).length
    (∀ count < closed, (after count).Gives reader valid
      (some ⟨.dedent, .closeBlock (after count).state.indents.top, 0, 0⟩)) ∧
    margins closed = kept ∧
    (if .indent ∈ valid ∧ (after closed).state.indents.top < blanks.width then
      (after closed).Gives reader valid (some ⟨.indent, .openBlock blanks.width, 0, 0⟩) ∧
        ∀ more > 0, (after (closed + more)).KeepsBlocks reader valid ∧
          margins (closed + more) = kept ++ [blanks.width]
    else
      ∀ more, (after (closed + more)).KeepsBlocks reader valid ∧ margins (closed + more) = kept) ∧
    (blanks.comment? = none → ∀ more > 0,
      margins (closed + more) = levels.filter (· ≤ blanks.width) ++
        if .indent ∈ valid ∧ blanks.width ∉ levels then [blanks.width] else []) := by
  intro reader after margins levels kept closed
  obtain ⟨hcloses, hkept, hliteral⟩ : (∀ count < closed, (after count).Gives reader valid
      (some ⟨.dedent, .closeBlock (after count).state.indents.top, 0, 0⟩)) ∧
      margins closed = kept ∧ (after closed).state.literal? valid = none :=
    closes_blocks hskip hcrossed (State.literal?_eq_none hopen) hvalid
      (scanner.state.indents.filter_append_filter blanks.bound).symm (by simp)
  have hbound : ¬ blanks.bound < (after closed).state.indents.top := by
    rw [UInt32.not_lt]
    apply Indentation.top_le_of_forall
    show ∀ level ∈ margins closed, level ≤ blanks.bound
    rw [hkept]
    simp [kept]
  rw [← options_rescanned (ByteReader.ofBytes source offset) valid closed] at hskip
  have hsettles := settles_of_top_le hskip hcrossed hliteral rfl hbound
  have hafter (more : Nat) : after (closed + more) = rescanned reader valid more (after closed) := by
    apply rescanned_add
  simp only [margins, hafter] at hkept ⊢
  rw [← hkept]
  refine ⟨hcloses, rfl, hsettles, ?_⟩
  intro hcomment more hmore
  have hwidth : blanks.bound = blanks.width := by
    rw [Blanks.bound, hcomment]
    rfl
  have hkeptWidth : (after closed).state.indents.toList = levels.filter (· ≤ blanks.width) := by
    rw [hkept, ← hwidth]
  have hmem : (after closed).state.indents.top < blanks.width ↔ blanks.width ∉ levels :=
    Indentation.top_lt_iff_not_mem hkeptWidth
  rw [← hkeptWidth]
  simp only [← hmem]
  by_cases hopens : .indent ∈ valid ∧ (after closed).state.indents.top < blanks.width
  . rw [if_pos hopens] at hsettles ⊢
    exact (hsettles.2 more hmore).2
  . rw [if_neg hopens] at hsettles ⊢
    rw [List.append_nil]
    exact (hsettles more).2

theorem blocks_settle_between_margins :
    let scanner : Scanner := { state := { indents := ⟨#[0, 2, 4, 8], by decide⟩ } }
    let source : List UInt8 := Utf8.encode "\n  #\n   x".toList
    let reader := ByteReader.ofBytes source 0
    let valid : TokenSet := .ofList [.indent, .dedent]
    let blanks : Blanks := ⟨true, 3, some 2⟩
    let after := fun count => rescanned reader valid count scanner
    (Blanks.skip scanner.options.tabWidth false {} (Reader.ahead reader)).value
      = some (blanks, ['x']) ∧
    (∀ count < 2, (after count).Gives reader valid
      (some ⟨.dedent, .closeBlock (after count).state.indents.top, 0, 0⟩)) ∧
    (after 2).Gives reader valid (some ⟨.indent, .openBlock 3, 0, 0⟩) ∧
    ∀ more > 0, (after (2 + more)).KeepsBlocks reader valid ∧
      (after (2 + more)).state.indents.toList = [0, 2, 3] := by
  intro scanner source reader valid blanks after
  have hskip : (Blanks.skip scanner.options.tabWidth false {} (Reader.ahead reader)).value
      = some (blanks, ['x']) := by
    decide +kernel
  have hsettles := @blocks_settle scanner valid source 0 blanks ['x'] (by decide) (by decide) hskip rfl
  have hclosed : (scanner.state.indents.toList.filter (blanks.bound < ·)).length = 2 := by
    decide +kernel
  have hkept : scanner.state.indents.toList.filter (· ≤ blanks.bound) = [0, 2] := by
    decide +kernel
  have hopens : .indent ∈ valid ∧
      (rescanned (ByteReader.ofBytes source 0) valid 2 scanner).state.indents.top < blanks.width := by
    decide +kernel
  dsimp only at hsettles
  rw [hclosed, hkept, if_pos hopens] at hsettles
  obtain ⟨hcloses, _, ⟨hgives, hlater⟩, _⟩ := hsettles
  exact ⟨hskip, hcloses, hgives, hlater⟩

end Scanner

end Offside
