import Offside.Proofs.Scanning.Lines
import Offside.Proofs.Scanning.Text

/-!
This module contains the proof that what is ahead of a scan determines its answer: there is one for
each split of the characters ahead into units of text, or into items that stand between two tokens.
-/

namespace Offside

namespace Literal

variable {delimiter : Delimiter} {quote : Quote} {segments : List (List Char)} {rest : List Char}

theorem exists_closing_eq_cons (delimiter : Delimiter) (quote : Quote) :
    ∃ quotes, closing delimiter quote.char = quote.char :: quotes := by
  unfold closing
  split
  . exact ⟨_, List.replicate_succ⟩
  . exact ⟨_, List.replicate_succ⟩

theorem Answers.unique {lhs rhs : Option Answer} (hlhs : Answers delimiter quote segments rest lhs)
    (hrhs : Answers delimiter quote segments rest rhs) : lhs = rhs := by
  obtain ⟨hbrace, hbackslash, hline⟩ := quote_ne quote
  obtain ⟨quotes, hclosing⟩ := exists_closing_eq_cons delimiter quote
  generalize hother : rest = other at hrhs
  cases hlhs <;> cases hrhs <;> grind

variable {isFirst : Bool}

theorem IsUnit.of_head?_ne {unit : List Char} (h : IsUnit delimiter quote isFirst unit rest)
    (hline : (unit ++ rest).head? ≠ some '\n') (other : Bool) :
    IsUnit delimiter quote other unit rest := by
  cases h with
  | braces h => exact .braces h
  | backslash h => exact .backslash h
  | charName hraw hbytes hchar => exact .charName hraw hbytes hchar
  | quotes htriple hcount hrest => exact .quotes htriple hcount hrest
  | char hquote hbackslash hbrace =>
    apply IsUnit.char hquote hbackslash hbrace
    rintro rfl
    exact absurd rfl hline

theorem stops_of_head?_ne {other : Bool} (h : (units delimiter quote).Stops isFirst rest)
    (hline : rest.head? ≠ some '\n') : (units delimiter quote).Stops other rest := by
  rintro unit more rfl hunit
  exact h unit more rfl (hunit.of_head?_ne hline isFirst)

theorem stops_closing_append (rest : List Char) :
    (units delimiter quote).Stops isFirst (closing delimiter quote.char ++ rest) := by
  obtain ⟨hbrace, hbackslash, _⟩ := quote_ne quote
  obtain ⟨quotes, hclosing⟩ := exists_closing_eq_cons delimiter quote
  intro unit more heq hunit
  replace heq : closing delimiter quote.char ++ rest = unit ++ more := heq
  cases hunit with
  | quotes htriple hcount hrest =>
    -- A third quote follows the two that are the longest unit
    rw [closing, if_pos htriple] at heq
    obtain rfl | rfl := hcount <;> grind [List.replicate]
  | _ => grind

end Literal

namespace Scanner

variable {scanner : Scanner} {valid : TokenSet} {source : List UInt8} {offset : Nat}

theorem Gives.kind_eq {reader : ByteReader} {answer? : Option Answer}
    (h : scanner.Gives reader valid answer?) :
    answer?.map Answer.kind
      =
    (scanner.walk valid (Reader.ahead reader)).value.map Found.kind := by
  have htold := h.told
  rw [getLast?_events_scan, Option.some.injEq] at htold
  generalize (scanner.walk valid (Reader.ahead reader)).value.map Found.kind = found? at htold ⊢
  generalize answer?.map Answer.kind = kind? at htold ⊢
  cases found? <;> cases kind? <;> simp_all

theorem exists_gives_of_units {delimiter : Delimiter} {quote : Quote} {segments : List (List Char)}
    {rest : List Char} (hliteral : scanner.state.literal? valid = some delimiter)
    (hquote : delimiter.quote? = some quote)
    (h : (Literal.units delimiter quote).Splits (Reader.ahead (ByteReader.ofBytes source offset))
      segments rest) :
    ∃ answer?, Literal.Answers delimiter quote segments rest answer? ∧
      scanner.Gives (.ofBytes source offset) valid answer? := by
  obtain ⟨answer?, hanswers, hyields⟩ :=
    Literal.exists_answer_of_splits (State.delimiter?_of_literal? hliteral) h
  have hwalk : scanner.walk valid (Reader.ahead (ByteReader.ofBytes source offset))
      = Literal.scanText delimiter quote.char false
          (Reader.ahead (ByteReader.ofBytes source offset)) := by
    rw [walk, State.scan_of_literal?_eq_some hliteral, Literal.scanContent, hquote]
  rw [← hwalk] at hyields
  exact ⟨answer?, hanswers, gives_of_yields hyields⟩

theorem exists_gives_of_items {passed : List Blanks.Item} {rest : List Char}
    (hliteral : scanner.state.literal? valid = none)
    (h : Blanks.items.Splits (Reader.ahead (ByteReader.ofBytes source offset)) passed rest) :
    ∃ answer?,
      Layout.Answers scanner.options.tabWidth scanner.state.indents.top valid passed rest answer? ∧
      scanner.Gives (.ofBytes source offset) valid answer? := by
  obtain ⟨answer?, hanswers, hyields⟩ :=
    @Layout.exists_answer_of_splits scanner.options.tabWidth scanner.state valid _ _ _ h
  rw [← State.scan_of_literal?_eq_none hliteral] at hyields
  exact ⟨answer?, hanswers, gives_of_yields hyields⟩

end Scanner

end Offside
