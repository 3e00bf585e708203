import Offside.Host
import Offside.Proofs.Reading.CodePoints
import Offside.Proofs.Session.Restoring

/-!
This module contains the proof that a parser which drives a scanner through the entry points gets
what the scanner itself finds in the same text, over any requests and whatever bytes it restores.
-/

namespace Offside

namespace Scanner

variable {ρ : Type} [Reader ρ]

theorem outcome_scan {scanner : Scanner} (h : scanner.options.checked = false) (reader : ρ)
    (valid : TokenSet) :
    (scanner.scan reader valid).value.outcome
      =
    .ok ((scanner.walk valid (Reader.ahead reader)).value.map Found.kind) := by
  unfold scan
  simp [h, walk]

end Scanner

namespace Host

inductive Request where
  | scan (units : List Int32) (index : Nat) (flags : List Bool)
  | deserialize (buffer? : Option (List UInt8))
  | recreate

namespace Request

def serve (scanner : Scanner) : Request → Scanner
  | scan units index flags => (Host.scan scanner (.ofCodePoints units index) flags).value.2.1
  | deserialize buffer? => (Host.deserialize scanner buffer?).value
  | recreate => create

def perform (scanner : Scanner) : Request → Scanner
  | scan units index flags =>
    (scanner.scan (CodePointReader.inBytes units index) (.ofFlags flags)).value.scanner
  | deserialize buffer? =>
    match (scanner.restore (buffer?.getD [])).value with
    | .ok restored => restored
    | .error _ => scanner.reset
  | recreate => {}

end Request

/--
A scan through the entry points and a scan in the bytes of the same text end in the same way. For
the parser, a token starts at the earlier of its start and its end.
-/
structure Agrees (units : List Int32) (index : Nat) (symbol : UInt16)
    (hosted : Bool × Scanner × CodePointReader) (scanned : Scanner.Scanned ByteReader) : Prop where
  scanner : hosted.2.1 = scanned.scanner
  outcome : ∃ kind?, scanned.outcome = .ok kind? ∧ hosted.1 = kind?.isSome ∧
    hosted.2.2.symbol = kind?.elim symbol TokenKind.symbol
  cursor : CodePointReader.Corresponds units hosted.2.2.cursor scanned.reader.position
  stop_of_mark : ∀ mark ∈ scanned.reader.mark?,
    CodePointReader.Corresponds units hosted.2.2.stop mark
  stop_of_none : scanned.reader.mark? = none → hosted.2.2.stop = min index units.length
  token : ∀ kind, scanned.outcome = .ok (some kind) →
    CodePointReader.Corresponds units (min hosted.2.2.start hosted.2.2.stop)
      (scanned.reader.token kind).start ∧
    CodePointReader.Corresponds units hosted.2.2.stop (scanned.reader.token kind).stop

theorem value_scan {scanner : Scanner} {reader : CodePointReader} {flags : List Bool}
    {kind? : Option TokenKind}
    (h : (scanner.scan reader (.ofFlags flags)).value.outcome = .ok kind?) :
    (scan scanner reader flags).value =
      let scanned := (scanner.scan reader (.ofFlags flags)).value
      (kind?.isSome, scanned.scanner,
        { scanned.reader with symbol := kind?.elim scanned.reader.symbol TokenKind.symbol }) := by
  rw [scan, Logged.value_bind]
  dsimp only
  rw [h]
  cases kind? with
  | none => rfl
  | some kind => rfl

theorem mark_mem_walk {scanner : Scanner} {valid : TokenSet} {chars : List Char} {kind : TokenKind}
    (h : (scanner.walk valid chars).value.map Found.kind = some kind) :
    .mark ∈ (scanner.walk valid chars).moves := by
  rw [Option.map_eq_some_iff] at h
  obtain ⟨found, hfound, _⟩ := h
  apply State.Finds.mark_mem
  apply State.finds_of_scan hfound

theorem mark?_ne_none_of_mark_mem {moves : List Move} (h : .mark ∈ moves) (units : List Int32)
    (index : Nat) : (Reader.follow (CodePointReader.inBytes units index) moves).mark? ≠ none := by
  unfold CodePointReader.inBytes ByteReader.ofBytes
  dsimp only
  rw [((ByteReader.tracks_start _ _).follow moves).mark?, ne_eq, Option.map_eq_none_iff]
  apply Track.mark?_follow_ne_none h

section Scan

variable (units : List Int32) (index : Nat) (symbol : UInt16)

theorem alongside_scan (scanner : Scanner) (valid : TokenSet) :
    CodePointReader.Alongside units (min index units.length)
      (scanner.scan { CodePointReader.ofCodePoints units index with symbol } valid).value.reader
      (scanner.scan (CodePointReader.inBytes units index) valid).value.reader := by
  have hahead := CodePointReader.ahead_inBytes units index symbol
  obtain ⟨before, after, hmoves, hbefore, hafter⟩ :=
    scanner.state.exists_moves_scan scanner.options.tabWidth valid
      (Reader.ahead (CodePointReader.inBytes units index))
  rw [Scanner.reader_scan, Scanner.reader_scan, hahead, Scanner.walk, hmoves]
  apply CodePointReader.alongside_follow units index symbol hbefore hafter

theorem scan_agrees {scanner : Scanner} (h : scanner.options.checked = false) (flags : List Bool) :
    Agrees units index symbol
      (scan scanner { CodePointReader.ofCodePoints units index with symbol } flags).value
      (scanner.scan (CodePointReader.inBytes units index) (.ofFlags flags)).value := by
  have hahead := CodePointReader.ahead_inBytes units index symbol
  have halongside := alongside_scan units index symbol scanner (.ofFlags flags)
  obtain ⟨hsame, hscanner, _⟩ := scanner.scan_eq_of_ahead_eq (.ofFlags flags) hahead
  have houtcome := Scanner.outcome_scan h (CodePointReader.inBytes units index) (.ofFlags flags)
  rw [value_scan (hsame.trans houtcome)]
  exact
    {
      scanner := hscanner
      outcome := by
        refine ⟨_, houtcome, rfl, ?_⟩
        dsimp only
        rw [Scanner.reader_scan, CodePointReader.symbol_follow]
      cursor := halongside.cursor
      stop_of_mark := halongside.stop_of_mark
      stop_of_none := halongside.stop_of_none
      token := by
        intro kind hkind
        rw [houtcome, Except.ok.injEq] at hkind
        -- The readers disagree about a token without a mark, but there is none
        have hmark := mark?_ne_none_of_mark_mem (mark_mem_walk hkind) units index
        rw [← Scanner.reader_scan, Option.ne_none_iff_exists'] at hmark
        obtain ⟨mark, hmark⟩ := hmark
        have hstop := halongside.stop_of_mark mark hmark
        rw [ByteReader.token, hmark]
        exact ⟨halongside.start.min hstop, hstop⟩
    }

end Scan

theorem serialize_eq_save {scanner : Scanner} (h : scanner.options.capacity = bufferSize) :
    (serialize scanner).value = scanner.save.value := by
  rw [serialize, Logged.value_bind, Scanner.save, h]
  generalize hbuffer : Array.replicate bufferSize (0 : UInt8) = buffer
  have hsize : buffer.size = bufferSize := by
    rw [← hbuffer, Array.size_replicate]
  have hwrite := State.toList_take_write scanner.state buffer bufferSize
  rw [hsize, Nat.min_self] at hwrite
  rw [Scanner.saveInto, h]
  exact hwrite

theorem value_deserialize (scanner : Scanner) (buffer? : Option (List UInt8)) :
    (deserialize scanner buffer?).value =
      match (scanner.restore (buffer?.getD [])).value with
      | .ok restored => restored
      | .error _ => scanner.reset := by
  rw [deserialize, Logged.value_bind]
  cases (scanner.restore (buffer?.getD [])).value with
  | ok => rfl
  | error => rfl

theorem options_perform (scanner : Scanner) (request : Request) (h : scanner.options = {}) :
    (request.perform scanner).options = {} := by
  cases request with
  | scan => rw [Request.perform, Scanner.options_scan, h]
  | deserialize buffer? =>
    rw [Request.perform, Scanner.value_restore]
    cases State.decode (buffer?.getD []) scanner.options.capacity with
    | ok => exact h
    | error => exact h
  | recreate => rfl

theorem serve_eq_perform {scanner : Scanner} (h : scanner.options = {}) (request : Request) :
    request.serve scanner = request.perform scanner := by
  cases request with
  | scan units index flags =>
    have hagrees := scan_agrees units index 65535 (by rw [h]) flags
    exact hagrees.scanner
  | deserialize buffer? =>
    apply value_deserialize
  | recreate => rfl

theorem foldl_serve_eq {scanner : Scanner} (h : scanner.options = {}) (requests : List Request) :
    requests.foldl Request.serve scanner = requests.foldl Request.perform scanner ∧
      (requests.foldl Request.perform scanner).options = {} := by
  induction requests generalizing scanner with
  | nil => exact ⟨rfl, h⟩
  | cons request requests ih =>
    rw [List.foldl_cons, List.foldl_cons, serve_eq_perform h]
    apply ih
    apply options_perform _ _ h

theorem serve_refines_perform (requests : List Request) :
    let hosted := requests.foldl Request.serve create
    let scanner : Scanner := requests.foldl Request.perform {}
    hosted = scanner ∧ (serialize hosted).value = scanner.save.value ∧
      ∀ (units : List Int32) (index : Nat) (flags : List Bool) (symbol : UInt16),
        Agrees units index symbol
          (scan hosted { CodePointReader.ofCodePoints units index with symbol } flags).value
          (scanner.scan (CodePointReader.inBytes units index) (.ofFlags flags)).value := by
  intro hosted scanner
  have hinitial : create.options = {} := rfl
  obtain ⟨heq, hoptions⟩ := foldl_serve_eq hinitial requests
  have hhosted : hosted = scanner := heq
  have hscanner : scanner.options = {} := hoptions
  rw [hhosted]
  refine ⟨rfl, ?_, ?_⟩
  . apply serialize_eq_save
    rw [hscanner]
    rfl
  . intro units index flags symbol
    apply scan_agrees
    rw [hscanner]

end Host

end Offside
