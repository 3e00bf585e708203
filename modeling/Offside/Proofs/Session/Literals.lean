import Offside.Proofs.Scanning.Body
import Offside.Proofs.Session.Bracketing
import Offside.Proofs.Session.Checking

/-!
This module contains the proof that a literal is read as the tokens that it is written as, and that
nothing of it is left in the state of the scanner.
-/

namespace Offside

namespace State

variable {state : State} {delimiter : Delimiter}

theorem malformed?_pushDelimiter (h : delimiter.WellFormed) :
    (state.pushDelimiter delimiter).malformed? = state.malformed? := by
  rw [malformed?, malformed?, pushDelimiter, Array.find?_push]
  simp [h]

theorem delimiter?_pushDelimiter : (state.pushDelimiter delimiter).delimiter? = some delimiter := by
  rw [delimiter?, pushDelimiter, Array.back?_push]

end State

namespace Scanner

variable {scanner : Scanner} {delimiter : Delimiter}

theorem unlessMalformed_pushDelimiter {α : Type} (h : delimiter.WellFormed) (answer : α) :
    (scanner.withState (scanner.state.pushDelimiter delimiter)).unlessMalformed answer
      =
    scanner.unlessMalformed answer := by
  apply unlessMalformed_congr
  . rfl
  . exact State.malformed?_pushDelimiter h

theorem Passes.of_pushDelimiter
    (h : (scanner.withState (scanner.state.pushDelimiter delimiter)).Passes) : scanner.Passes := by
  intro hchecked outer hmem
  apply h hchecked
  exact Array.mem_push_of_mem delimiter hmem

end Scanner

namespace ByteReader

variable {before after : List Char} {reader : ByteReader}

theorem Tracks.offsetBehind
    (h : Tracks (Utf8.pieces (Utf8.encode after)) (Utf8.encode before).length reader
      { rest := after }) (count : Nat) :
    reader.offsetBehind count = (Utf8.encode (before ++ after.take count)).length := by
  have hposition : reader.position = (Utf8.encode before).length := h.position
  rw [ByteReader.offsetBehind, hposition, h.pieces_rest, List.drop_zero, Utf8.offset_pieces_encode,
    Utf8.encode_append, List.length_append]

end ByteReader

namespace Session

def read (source : String) (scanner : Scanner) (offset : Nat) :
    List TokenSet → Except Scanner.Violation (List Token × Scanner)
  | [] => .ok ([], scanner)
  | valid :: valids =>
    match (scanner.scanAt source offset valid).value with
    | (.error violation, _) => .error violation
    | (.ok none, next) => .ok ([], next)
    | (.ok (some token), next) =>
      (read source next token.stop valids).map fun (tokens, last) => (token :: tokens, last)

section Step

variable {scanner : Scanner} {source : String} {before text after : List Char} {valid : TokenSet}
  {kind : TokenKind} {change : Change} {state : State}

theorem tracks_boundary (hsource : source.toList = before ++ after) :
    ByteReader.Tracks (Utf8.pieces (Utf8.encode after)) (Utf8.encode before).length
      (ByteReader.ofString source (Utf8.encode before).length) { rest := after } := by
  apply ByteReader.tracks_ofString hsource
  rw [hsource, Utf8.encode_append, List.length_append]
  apply Nat.min_eq_left
  apply Nat.le_add_right

theorem ahead_boundary (hsource : source.toList = before ++ after) :
    Reader.ahead (ByteReader.ofString source (Utf8.encode before).length) = after :=
  (tracks_boundary hsource).rest.symm

theorem scanAt_of_gives (hsource : source.toList = before ++ (text ++ after))
    (hchange : change.Between scanner.state state)
    (h : scanner.Gives (ByteReader.ofString source (Utf8.encode before).length) valid
      (some ⟨kind, change, 0, text.length⟩)) :
    (scanner.scanAt source (Utf8.encode before).length valid).value
      =
    ((scanner.withState state).unlessMalformed
        (some ⟨kind, (Utf8.encode before).length, (Utf8.encode (before ++ text)).length⟩),
      scanner.withState state) := by
  have htoken := h.token _ rfl
  have hnext : (scanner.scan (ByteReader.ofString source (Utf8.encode before).length) valid).value.scanner
      = scanner.withState state :=
    congrArg (Scanner.mk scanner.options) (h.change.unique hchange)
  rw [(tracks_boundary hsource).offsetBehind, (tracks_boundary hsource).offsetBehind,
    List.take_zero, List.append_nil, List.take_left] at htoken
  rw [value_scanAt]
  dsimp only
  rw [h.outcome, hnext, Scanner.report_eq_unlessMalformed]
  by_cases hpasses : (scanner.withState state).Passes
  . rw [Scanner.unlessMalformed_of_passes hpasses, Scanner.unlessMalformed_of_passes hpasses,
      ← htoken]
    rfl
  . obtain ⟨violation, hviolation⟩ := Scanner.unlessMalformed_of_not_passes hpasses
    rw [hviolation, hviolation]
    rfl

variable {next : Scanner} {valids : List TokenSet} {tokens : List Token}

theorem read_cons (hsource : source.toList = before ++ (text ++ after))
    (hchange : change.Between scanner.state state)
    (h : scanner.Gives (ByteReader.ofString source (Utf8.encode before).length) valid
      (some ⟨kind, change, 0, text.length⟩))
    (hnext : (scanner.withState state).Passes →
      read source (scanner.withState state) (Utf8.encode (before ++ text)).length valids
        = .ok (tokens, next)) :
    read source scanner (Utf8.encode before).length (valid :: valids)
      =
    (scanner.withState state).unlessMalformed
      (⟨kind, (Utf8.encode before).length, (Utf8.encode (before ++ text)).length⟩ :: tokens, next) := by
  rw [read, scanAt_of_gives hsource hchange h]
  by_cases hpasses : (scanner.withState state).Passes
  . rw [Scanner.unlessMalformed_of_passes hpasses, Scanner.unlessMalformed_of_passes hpasses]
    dsimp only
    rw [hnext hpasses]
    rfl
  . obtain ⟨violation, hviolation⟩ := Scanner.unlessMalformed_of_not_passes hpasses
    rw [hviolation, hviolation]

end Step

def tokensFrom (offset : Nat) : List (TokenKind × List Char) → List Token
  | [] => []
  | (kind, text) :: parts =>
    let stop := offset + (Utf8.encode text).length
    ⟨kind, offset, stop⟩ :: tokensFrom stop parts

theorem tokensFrom_cons (offset : Nat) (kind : TokenKind) (text : List Char)
    (parts : List (TokenKind × List Char)) :
    tokensFrom offset ((kind, text) :: parts)
      =
    ⟨kind, offset, offset + (Utf8.encode text).length⟩
      :: tokensFrom (offset + (Utf8.encode text).length) parts := rfl

theorem text?_tokensFrom {source : String} {before after : List Char}
    {parts : List (TokenKind × List Char)}
    (hsource : source.toList = before ++ (parts.flatMap Prod.snd ++ after)) :
    (tokensFrom (Utf8.encode before).length parts).map (fun token => token.text? source)
      =
    parts.map fun (_, text) => some (String.ofList text) := by
  induction parts generalizing before with
  | nil => rfl
  | cons part parts ih =>
    obtain ⟨kind, text⟩ := part
    rw [List.flatMap_cons, List.append_assoc] at hsource
    have hmore : source.toList = (before ++ text) ++ (parts.flatMap Prod.snd ++ after) := by
      rw [hsource, List.append_assoc]
    have hlength : (Utf8.encode (before ++ text)).length
        = (Utf8.encode before).length + (Utf8.encode text).length := by
      rw [Utf8.encode_append, List.length_append]
    rw [tokensFrom]
    dsimp only
    rw [List.map_cons, List.map_cons, ← hlength, ih hmore, hlength, Token.text?]
    dsimp only
    rw [Nat.add_sub_cancel_left, hsource, Utf8.drop?_length_encode]
    simp

end Session

namespace Literal

def Opening.parts (opening : Opening) (body : List Char) : List (TokenKind × List Char) :=
  if body = [] then
    [(.stringStart, opening.text), (.stringEnd, opening.quotes)]
  else
    [(.stringStart, opening.text), (.stringContent, body), (.stringEnd, opening.quotes)]

theorem Opening.parts_eq_cons (opening : Opening) (body : List Char) :
    opening.parts body = (.stringStart, opening.text) :: (opening.parts body).tail := by
  unfold parts
  split <;> rfl

theorem Opening.flatMap_parts (opening : Opening) (body : List Char) :
    (opening.parts body).flatMap Prod.snd = opening.text ++ (body ++ opening.quotes) := by
  unfold parts
  split
  . next hnil => simp [hnil]
  . simp

theorem Opening.Encloses.isAhead {opening : Opening} {body after : List Char}
    (h : opening.Encloses body)
    (hafter : opening.isTriple = false → body = [] → after.head? ≠ some opening.quote.char) :
    opening.IsAhead (opening.text ++ (body ++ (opening.quotes ++ after)))
      (body ++ (opening.quotes ++ after)) where
  eq_append := rfl
  isTriple_of_prefix := by
    intro hquote
    rw [← Bool.not_eq_false]
    intro hsingle
    have hquotes : opening.quotes = [opening.quote.char] := by
      rw [quotes, hsingle]
      rfl
    rw [hquotes] at hquote
    cases body with
    | nil =>
      obtain ⟨more, rfl⟩ := (List.cons_prefix_cons.1 hquote).2
      exact hafter hsingle rfl rfl
    | cons char body =>
      rw [List.cons_append, List.cons_prefix_cons] at hquote
      apply (h.single hsingle).1
      rw [hquote.1]
      exact List.mem_cons_self

end Literal

namespace Session

variable {scanner : Scanner} {source : String} {before body after : List Char}
  {opening : Literal.Opening}

def within : TokenSet :=
  .ofList [.stringContent, .stringEnd]

theorem literal?_within (state : State) : state.literal? within = state.delimiter? := by
  rw [State.literal?, if_pos]
  simp [within]

theorem read_quotes {closed : State}
    (hliteral : scanner.state.delimiter? = some opening.delimiter)
    (hclosed : (Change.closeLiteral opening.delimiter).Between scanner.state closed)
    (hsource : source.toList = before ++ (opening.quotes ++ after)) :
    read source scanner (Utf8.encode before).length [within]
      =
    (scanner.withState closed).unlessMalformed
      ([⟨.stringEnd, (Utf8.encode before).length, (Utf8.encode (before ++ opening.quotes)).length⟩],
        scanner.withState closed) := by
  have hgives := Scanner.gives_body ((literal?_within _).trans hliteral) .nil (ahead_boundary hsource)
  rw [if_pos rfl] at hgives
  apply read_cons hsource hclosed hgives
  intro _
  rfl

theorem read_body {closed : State} (hbody : opening.Encloses body)
    (hliteral : scanner.state.delimiter? = some opening.delimiter)
    (hclosed : (Change.closeLiteral opening.delimiter).Between scanner.state closed)
    (hsource : source.toList = before ++ (body ++ (opening.quotes ++ after)))
    (hopen : scanner.Passes) (hpasses : (scanner.withState closed).Passes) :
    read source scanner (Utf8.encode before).length
        ((opening.parts body).tail.map fun _ => within)
      =
    .ok (tokensFrom (Utf8.encode before).length (opening.parts body).tail,
      scanner.withState closed) := by
  have hwithin := (literal?_within scanner.state).trans hliteral
  have hgives := Scanner.gives_body hwithin hbody (ahead_boundary hsource)
  -- Without a body the closing quotes follow at once
  by_cases hnil : body = []
  . subst hnil
    rw [List.nil_append] at hsource
    rw [Literal.Opening.parts, if_pos rfl, List.tail_cons, List.map_singleton,
      read_quotes hliteral hclosed hsource, Scanner.unlessMalformed_of_passes hpasses,
      Utf8.encode_append, List.length_append]
    rfl
  . rw [if_neg hnil] at hgives
    have hquotes : source.toList = (before ++ body) ++ (opening.quotes ++ after) := by
      rw [hsource, List.append_assoc]
    have hkeep : Change.keep.Between scanner.state scanner.state := rfl
    have hend := read_quotes hliteral hclosed hquotes
    rw [Scanner.unlessMalformed_of_passes hpasses] at hend
    rw [Literal.Opening.parts, if_neg hnil, List.tail_cons, List.map_cons, List.map_singleton,
      read_cons hsource hkeep hgives fun _ => hend]
    refine (Scanner.unlessMalformed_of_passes hopen _).trans ?_
    simp only [Utf8.encode_append, List.length_append]
    rfl

theorem read_literal (hbody : opening.Encloses body)
    (hafter : opening.isTriple = false → body = [] → after.head? ≠ some opening.quote.char)
    (hsource : source.toList = before ++ (opening.text ++ (body ++ (opening.quotes ++ after)))) :
    let parts := opening.parts body
    let tokens := tokensFrom (Utf8.encode before).length parts
    read source scanner (Utf8.encode before).length
        (.ofList [.stringStart] :: parts.tail.map fun _ => within)
      = scanner.unlessMalformed (tokens, scanner) ∧
    tokens.map (fun token => token.text? source)
      = parts.map (fun (_, text) => some (String.ofList text)) := by
  intro parts tokens
  have hahead := hbody.isAhead hafter
  rw [← ahead_boundary hsource] at hahead
  constructor
  . let opened := scanner.state.pushDelimiter opening.delimiter
    have hopen : (Change.openLiteral opening.delimiter).Between scanner.state opened :=
      ⟨Array.toList_push, rfl⟩
    have hclosed : (Change.closeLiteral opening.delimiter).Between opened scanner.state :=
      ⟨Array.toList_push, rfl⟩
    have hliteral : scanner.state.literal? (.ofList [.stringStart]) = none := by
      simp [State.literal?]
    have hgives := Scanner.gives_opening hliteral (by simp) hahead
    have hrest : source.toList = (before ++ opening.text) ++ (body ++ (opening.quotes ++ after)) := by
      rw [hsource, List.append_assoc]
    have hread (hpasses : (scanner.withState opened).Passes) :=
      @read_body (scanner.withState opened) source _ body after opening scanner.state hbody
        State.delimiter?_pushDelimiter hclosed hrest hpasses hpasses.of_pushDelimiter
    rw [read_cons hsource hopen hgives hread,
      Scanner.unlessMalformed_pushDelimiter opening.wellFormed_delimiter, Utf8.encode_append,
      List.length_append, ← tokensFrom_cons,
      ← opening.parts_eq_cons]
    rfl
  . have htext : source.toList = before ++ (parts.flatMap Prod.snd ++ after) := by
      rw [opening.flatMap_parts, hsource]
      simp only [List.append_assoc]
    exact text?_tokensFrom htext

theorem read_literal_raw_format :
    let source := "x=fR'''\x7b\x7b''\\'''y"
    let scanner : Scanner := { options := { checked := true } }
    let tokens : List Token :=
      [⟨.stringStart, 2, 7⟩, ⟨.stringContent, 7, 12⟩, ⟨.stringEnd, 12, 15⟩]
    read source scanner 2 [.ofList [.stringStart], within, within] = .ok (tokens, scanner) ∧
      tokens.map (fun token => token.text? source)
        = [some "fR'''", some "\x7b\x7b''\\", some "'''"] := by
  intro source scanner tokens
  let opening : Literal.Opening := ⟨['f', 'R'], .single, true, List.all_eq_true.1 rfl⟩
  let body := "\x7b\x7b''\\".toList
  have hbraces : Literal.EvenBraces body := by
    apply Literal.EvenBraces.cons_cons
    apply Literal.EvenBraces.cons _ (by decide)
    apply Literal.EvenBraces.cons _ (by decide)
    apply Literal.EvenBraces.cons .nil (by decide)
  have hbody : opening.Encloses body :=
    {
      single := fun hsingle => absurd hsingle (by decide)
      triple := fun _ => by decide
      backslash := fun hraw => absurd hraw (by decide)
      brace := fun _ => hbraces
    }
  have hafter : opening.isTriple = false → body = [] →
      ['y'].head? ≠ some opening.quote.char := by
    decide
  have hsource : source.toList
      = ['x', '='] ++ (opening.text ++ (body ++ (opening.quotes ++ ['y']))) := by
    decide
  have hpasses : scanner.Passes := by
    intro _
    decide
  obtain ⟨hread, htexts⟩ := @read_literal scanner source _ _ _ opening hbody hafter hsource
  rw [Scanner.unlessMalformed_of_passes hpasses] at hread
  exact ⟨hread, htexts⟩

end Session

end Offside
