import Offside.Proofs.Scanning.Determined

/-!
This module contains the bodies that literals can have, and the proof that a body is read as text up to
the closing quotes behind it.
-/

namespace Offside

namespace Literal

def EvenBraces (body : List Char) : Prop :=
  ∀ before count after, body = before ++ List.replicate count '\x7b' ++ after →
    before.getLast? ≠ some '\x7b' → after.head? ≠ some '\x7b' → count % 2 = 0

namespace EvenBraces

variable {unit body : List Char}

theorem nil : EvenBraces [] := by
  intro before count after h _ _
  have hlength := congrArg List.length h
  simp at hlength
  omega

theorem cons {char : Char} (h : EvenBraces body) (hchar : char ≠ '\x7b') :
    EvenBraces (char :: body) := by
  intro before count after heq hbefore hafter
  cases before with
  | nil =>
    cases count with
    | zero => rfl
    | succ count =>
      rw [List.nil_append, List.replicate_succ, List.cons_append, List.cons.injEq] at heq
      exact absurd heq.1 hchar
  | cons first before =>
    rw [List.cons_append, List.cons_append, List.cons.injEq] at heq
    apply h before count after heq.2 _ hafter
    intro hlast
    apply hbefore
    rw [List.getLast?_cons, hlast]
    rfl

theorem cons_cons (h : EvenBraces body) : EvenBraces ('\x7b' :: '\x7b' :: body) := by
  intro before count after heq hbefore hafter
  match before, count with
  | [], 0 => rfl
  | [], 1 =>
    obtain ⟨_, rfl⟩ := List.cons.inj heq
    exact absurd rfl hafter
  | [], count + 2 =>
    have hbody := (List.cons.inj (List.cons.inj heq).2).2
    have := h [] count after hbody (by simp) hafter
    omega
  | [first], count =>
    obtain ⟨rfl, _⟩ := List.cons.inj heq
    exact absurd rfl hbefore
  | first :: second :: before, count =>
    obtain ⟨rfl, hrest⟩ := List.cons.inj heq
    obtain ⟨rfl, hbody⟩ := List.cons.inj hrest
    apply h before count after hbody _ hafter
    intro hlast
    apply hbefore
    simp [List.getLast?_cons, hlast]

theorem of_append (h : EvenBraces (unit ++ body)) (hunit : unit.getLast? ≠ some '\x7b') :
    EvenBraces body := by
  rintro before count after rfl hbefore hafter
  apply h (unit ++ before) count after
  . simp only [List.append_assoc]
  . rw [List.getLast?_append]
    cases hlast : before.getLast? with
    | none => exact hunit
    | some last => rwa [hlast] at hbefore
  . exact hafter

theorem of_cons_cons (h : EvenBraces ('\x7b' :: '\x7b' :: body)) : EvenBraces body := by
  rintro before count after rfl hbefore hafter
  -- A run of braces at the start of the body is longer by two in front of it
  cases before with
  | nil =>
    have := h [] (count + 2) after (by simp [List.replicate_succ]) (by simp) hafter
    omega
  | cons first before =>
    apply h ('\x7b' :: '\x7b' :: first :: before) count after
    . simp
    . simpa using hbefore
    . exact hafter

theorem exists_eq_cons (h : EvenBraces ('\x7b' :: body)) : ∃ rest, body = '\x7b' :: rest := by
  apply Classical.byContradiction
  intro hne
  have hone := h [] 1 body rfl (by simp)
  rw [Ne, List.head?_eq_some_iff] at hone
  exact absurd (hone hne) (by decide)

end EvenBraces

namespace Opening

variable {opening : Opening}

@[simp]
theorem isRaw_delimiter : opening.delimiter.isRaw = opening.letters.any isRawLetter := by
  apply Delimiter.has_ofParts
  simp

@[simp]
theorem isFormat_delimiter : opening.delimiter.isFormat = opening.letters.any isFormatLetter := by
  apply Delimiter.has_ofParts
  simp

@[simp]
theorem isBytes_delimiter : opening.delimiter.isBytes = opening.letters.any isBytesLetter := by
  apply Delimiter.has_ofParts
  simp

/--
A body that can stand between the quotes of a literal. It has nothing in it that closes the literal,
that the grammar has to read as an escape sequence, or that starts an interpolated expression.
-/
structure Encloses (opening : Opening) (body : List Char) : Prop where
  single : opening.isTriple = false → opening.quote.char ∉ body ∧ '\n' ∉ body
  triple : opening.isTriple = true →
    ¬ List.replicate 3 opening.quote.char <:+: body ∧ body.getLast? ≠ some opening.quote.char
  backslash : opening.letters.any isRawLetter = false →
    ∀ before after, body = before ++ '\\' :: after →
      opening.letters.any isBytesLetter = true ∧ ∃ char ∈ ['N', 'u', 'U'], after.head? = some char
  brace : opening.letters.any isFormatLetter = true → EvenBraces body

namespace Encloses

variable {unit body : List Char} {char : Char}

theorem nil : opening.Encloses [] where
  single _ := by simp
  triple _ := by simp
  backslash _ := by simp
  brace _ := .nil

theorem of_append (h : opening.Encloses (unit ++ body))
    (hbrace : opening.letters.any isFormatLetter = true → EvenBraces body) :
    opening.Encloses body where
  single hsingle := by
    have hbody := h.single hsingle
    simp only [List.mem_append, not_or] at hbody
    exact ⟨hbody.1.2, hbody.2.2⟩
  triple htriple := by
    obtain ⟨hthree, hlast⟩ := h.triple htriple
    constructor
    . intro hbody
      exact hthree (hbody.trans (List.suffix_append unit body).isInfix)
    . intro hbody
      apply hlast
      rw [List.getLast?_append, hbody]
      rfl
  backslash hraw before after heq := by
    apply h.backslash hraw (unit ++ before) after
    rw [heq, List.append_assoc]
  brace := hbrace

theorem of_append_of_getLast? (h : opening.Encloses (unit ++ body))
    (hunit : unit.getLast? ≠ some '\x7b') : opening.Encloses body := by
  apply h.of_append
  intro hformat
  exact (h.brace hformat).of_append hunit

theorem exists_unit_brace (h : opening.Encloses ('\x7b' :: body))
    (hformat : opening.letters.any isFormatLetter = true) (isFirst : Bool) (rest : List Char) :
    ∃ unit more, '\x7b' :: body = unit ++ more ∧ opening.Encloses more ∧
      IsUnit opening.delimiter opening.quote isFirst unit (more ++ rest) := by
  obtain ⟨more, rfl⟩ := (h.brace hformat).exists_eq_cons
  have heven := (h.brace hformat).of_cons_cons
  replace h : opening.Encloses (['\x7b', '\x7b'] ++ more) := h
  refine ⟨_, more, rfl, h.of_append fun _ => heven, .braces ?_⟩
  rw [isFormat_delimiter]
  exact hformat

theorem exists_unit_backslash (h : opening.Encloses ('\\' :: body)) (isFirst : Bool)
    (rest : List Char) :
    ∃ unit more, '\\' :: body = unit ++ more ∧ opening.Encloses more ∧
      IsUnit opening.delimiter opening.quote isFirst unit (more ++ rest) := by
  cases hraw : opening.letters.any isRawLetter with
  | true =>
    replace h : opening.Encloses (['\\'] ++ body) := h
    refine ⟨_, body, rfl, h.of_append_of_getLast? (by decide), .backslash ?_⟩
    rw [isRaw_delimiter]
    exact hraw
  | false =>
    obtain ⟨hbytes, char, hchar, hhead⟩ := h.backslash hraw [] body rfl
    obtain ⟨more, rfl⟩ := List.head?_eq_some_iff.1 hhead
    have hlast : ['\\', char].getLast? ≠ some '\x7b' := by
      rintro hlast
      obtain rfl : char = '\x7b' := by simpa using hlast
      exact absurd hchar (by decide)
    replace h : opening.Encloses (['\\', char] ++ more) := h
    refine ⟨_, more, rfl, h.of_append_of_getLast? hlast, .charName ?_ ?_ hchar⟩
    . rw [isRaw_delimiter]
      exact hraw
    . rw [isBytes_delimiter]
      exact hbytes

theorem exists_unit_quote (h : opening.Encloses (opening.quote.char :: body)) (isFirst : Bool)
    (rest : List Char) :
    ∃ unit more, opening.quote.char :: body = unit ++ more ∧ opening.Encloses more ∧
      IsUnit opening.delimiter opening.quote isFirst unit (more ++ rest) := by
  obtain ⟨hbrace, _⟩ := quote_ne opening.quote
  have htriple : opening.isTriple = true := by
    rw [← Bool.not_eq_false]
    intro hsingle
    exact (h.single hsingle).1 List.mem_cons_self
  have hdelimiter : opening.delimiter.isTriple = true := by
    rw [isTriple_delimiter]
    exact htriple
  have hunit (count : Nat) : (List.replicate count opening.quote.char).getLast? ≠ some '\x7b' := by
    rw [List.getLast?_replicate]
    split <;> simp [hbrace]
  obtain ⟨hthree, hlast⟩ := h.triple htriple
  -- A third quote would close the literal, and it does not end with one
  rcases body with _ | ⟨second, body⟩
  . exact absurd rfl hlast
  . by_cases hsecond : second = opening.quote.char
    . subst hsecond
      rcases body with _ | ⟨third, body⟩
      . exact absurd rfl hlast
      . have hthird : third ≠ opening.quote.char := by
          rintro rfl
          exact hthree (List.prefix_append [_, _, _] body).isInfix
        replace h : opening.Encloses (List.replicate 2 opening.quote.char ++ third :: body) := h
        refine ⟨_, _, rfl, h.of_append_of_getLast? (hunit 2), .quotes hdelimiter (.inr rfl) ?_⟩
        simpa using hthird
    . replace h : opening.Encloses (List.replicate 1 opening.quote.char ++ second :: body) := h
      refine ⟨_, _, rfl, h.of_append_of_getLast? (hunit 1), .quotes hdelimiter (.inl rfl) ?_⟩
      simpa using hsecond

theorem exists_unit_char (h : opening.Encloses (char :: body)) (hquote : char ≠ opening.quote.char)
    (hbackslash : char ≠ '\\') (hbrace : ¬ (char = '\x7b' ∧ opening.delimiter.isFormat = true))
    (isFirst : Bool) (rest : List Char) :
    ∃ unit more, char :: body = unit ++ more ∧ opening.Encloses more ∧
      IsUnit opening.delimiter opening.quote isFirst unit (more ++ rest) := by
  have hline : char = '\n' → opening.delimiter.isTriple = true := by
    rintro rfl
    rw [isTriple_delimiter, ← Bool.not_eq_false]
    intro hsingle
    exact (h.single hsingle).2 List.mem_cons_self
  have hmore : opening.Encloses body := by
    apply @of_append opening [char] body h
    intro hformat
    apply @EvenBraces.of_append [char] body (h.brace hformat)
    rw [List.getLast?_singleton, Ne, Option.some.injEq]
    rintro rfl
    rw [isFormat_delimiter] at hbrace
    exact hbrace ⟨rfl, hformat⟩
  exact ⟨[char], body, rfl, hmore, .char hquote hbackslash hbrace fun heq => .inl (hline heq)⟩

theorem exists_unit (h : opening.Encloses (char :: body)) (isFirst : Bool) (rest : List Char) :
    ∃ unit more, char :: body = unit ++ more ∧ opening.Encloses more ∧
      IsUnit opening.delimiter opening.quote isFirst unit (more ++ rest) := by
  by_cases hbrace : char = '\x7b' ∧ opening.delimiter.isFormat = true
  . obtain ⟨rfl, hformat⟩ := hbrace
    rw [isFormat_delimiter] at hformat
    exact h.exists_unit_brace hformat isFirst rest
  . by_cases hbackslash : char = '\\'
    . subst hbackslash
      exact h.exists_unit_backslash isFirst rest
    . by_cases hquote : char = opening.quote.char
      . subst hquote
        exact h.exists_unit_quote isFirst rest
      . exact h.exists_unit_char hquote hbackslash hbrace isFirst rest

theorem exists_run (h : opening.Encloses body) (isFirst : Bool) (rest : List Char) :
    ∃ segments, (units opening.delimiter opening.quote).text segments = body ∧
      (units opening.delimiter opening.quote).Run isFirst segments
        (closing opening.delimiter opening.quote.char ++ rest) := by
  -- Units have different lengths, hence the induction on the length of the body
  induction hlength : body.length using Nat.strongRecOn generalizing isFirst body with
  | ind length ih =>
    cases body with
    | nil => exact ⟨[], rfl, .stop (stops_closing_append rest)⟩
    | cons char body =>
      obtain ⟨unit, more, heq, hmore, hunit⟩ :=
        h.exists_unit isFirst (closing opening.delimiter opening.quote.char ++ rest)
      have hshorter : more.length < length := by
        have := List.length_pos_iff.2 hunit.ne_nil
        rw [heq, List.length_append] at hlength
        omega
      obtain ⟨segments, rfl, hrun⟩ := ih more.length hshorter hmore false rfl
      exact ⟨unit :: segments, heq.symm, .next hunit hrun⟩

end Encloses

end Opening

end Literal

namespace Blanks

theorem stops_opening_append (opening : Literal.Opening) (isFirst : Bool) (rest : List Char) :
    items.Stops isFirst (opening.text ++ rest) := by
  obtain ⟨char, hhead, hchar⟩ := opening.exists_head?_text_append rest
  obtain ⟨more, hmore⟩ := List.head?_eq_some_iff.1 hhead
  rw [hmore]
  apply stops_cons hchar

end Blanks

namespace Scanner

variable {scanner : Scanner} {valid : TokenSet} {source : List UInt8} {offset : Nat}
  {opening : Literal.Opening} {rest : List Char}

theorem gives_opening (hliteral : scanner.state.literal? valid = none) (hvalid : .stringStart ∈ valid)
    (h : opening.IsAhead (Reader.ahead (ByteReader.ofBytes source offset)) rest) :
    scanner.Gives (.ofBytes source offset) valid
      (some ⟨.stringStart, .openLiteral opening.delimiter, 0, opening.text.length⟩) := by
  obtain ⟨chars, hchars⟩ : ∃ chars, Reader.ahead (ByteReader.ofBytes source offset) = chars :=
    ⟨_, rfl⟩
  obtain ⟨char, hhead, hchar⟩ := opening.exists_head?_text_append rest
  rw [hchars] at h
  rw [← h.eq_append] at hhead
  have hstops : Blanks.items.Stops true chars := by
    rw [h.eq_append]
    apply Blanks.stops_opening_append
  obtain ⟨answer?, hanswers, hgives⟩ := exists_gives_of_items hliteral ⟨hchars, .stop hstops⟩
  have hline : Layout.lineAnswer? scanner.options.tabWidth scanner.state.indents.top valid [] chars
      = none := by
    rw [Layout.lineAnswer?, if_pos]
    rintro (rfl | hmem)
    . contradiction
    . contradiction
  cases hanswers with
  | obstacle rest =>
    obtain rfl := Option.some.inj hhead
    exact absurd (by decide) hchar
  | line _ hanswer => exact absurd (hanswer.symm.trans hline) (by simp)
  | @literal _ more other _ _ _ hother =>
    rw [hother.unique h] at hgives
    simpa using hgives
  | declined _ _ hnone => exact absurd h.eq_append (hnone rfl hvalid opening rest)

theorem gives_body (hliteral : scanner.state.literal? valid = some opening.delimiter)
    {body : List Char} (hbody : opening.Encloses body)
    (hahead : Reader.ahead (ByteReader.ofBytes source offset) = body ++ (opening.quotes ++ rest)) :
    scanner.Gives (.ofBytes source offset) valid
      (some
        (if body = [] then
          ⟨.stringEnd, .closeLiteral opening.delimiter, 0, opening.quotes.length⟩
        else
          ⟨.stringContent, .keep, 0, body.length⟩)) := by
  obtain ⟨segments, rfl, hrun⟩ := hbody.exists_run true rest
  rw [← opening.closing_eq_quotes] at hahead
  obtain ⟨answer?, hanswers, hgives⟩ :=
    exists_gives_of_units hliteral opening.quote?_delimiter ⟨hahead, hrun⟩
  rw [hanswers.unique (.closing rest), opening.closing_eq_quotes] at hgives
  by_cases hnil : segments = []
  . rw [if_pos (hrun.text_eq_nil_iff.2 hnil)]
    rw [if_pos hnil] at hgives
    exact hgives
  . rw [if_neg (mt hrun.text_eq_nil_iff.1 hnil)]
    rw [if_neg hnil] at hgives
    exact hgives

end Scanner

end Offside
