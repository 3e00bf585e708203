import Offside.Proofs.Saving.Buffer
import Offside.Proofs.Scanning.WellFormed

/-!
This module contains the proof that a parser which saves the state, drops its scanner and goes on
with a new one sees nothing of that, as long as the state fits into what it is saved in.
-/

namespace Offside

namespace State

@[simp]
theorem value_load (bytes : List UInt8) (capacity : Nat) :
    (load bytes capacity).value = decode bytes capacity := by
  unfold load
  cases decode bytes capacity with
  | error => rfl
  | ok state => cases hempty : bytes.isEmpty <;> simp

end State

namespace Scanner

theorem value_restore (scanner : Scanner) (bytes : List UInt8) :
    (scanner.restore bytes).value
      =
    (State.decode bytes scanner.options.capacity).map scanner.withState := by
  rw [restore, Logged.value_bind, State.value_load, Logged.value_pure]

structure Fits (scanner : Scanner) : Prop where
  delimiters : scanner.state.delimiters.size ≤ 255
  bytes : 1 + scanner.state.delimiters.size + State.levelBytes scanner.state.indents.blocks
    ≤ scanner.options.capacity

instance (scanner : Scanner) : Decidable scanner.Fits :=
  decidable_of_iff (_ ∧ _) ⟨fun h => ⟨h.1, h.2⟩, fun h => ⟨h.1, h.2⟩⟩

theorem restore_encode {scanner : Scanner} (hstate : scanner.state.WellFormed)
    (hfits : scanner.Fits) :
    (restore { options := scanner.options }
      (scanner.state.encode scanner.options.capacity)).value = .ok scanner := by
  rw [value_restore]
  rw [State.decode_encode_of_fits hstate hfits.delimiters hfits.bytes]
  rfl

end Scanner

namespace Session

inductive Medium where
  | owned
  | buffer (previous : Array UInt8)

namespace Medium

def bytes (medium : Medium) (scanner : Scanner) : List UInt8 :=
  match medium with
  | owned => scanner.save.value
  | buffer previous =>
    let (length, written) := (scanner.saveInto previous).value
    written.toList.take length

def HasRoom (medium : Medium) (capacity : Nat) : Prop :=
  match medium with
  | owned => True
  | buffer previous => capacity ≤ previous.size

instance (medium : Medium) (capacity : Nat) : Decidable (medium.HasRoom capacity) :=
  match medium with
  | owned => inferInstanceAs (Decidable True)
  | buffer previous => inferInstanceAs (Decidable (capacity ≤ previous.size))

theorem bytes_eq_encode {medium : Medium} {scanner : Scanner}
    (h : medium.HasRoom scanner.options.capacity) :
    medium.bytes scanner = scanner.state.encode scanner.options.capacity := by
  cases medium with
  | owned => rfl
  | buffer previous =>
    rw [HasRoom] at h
    have hwrite := State.toList_take_write scanner.state previous scanner.options.capacity
    rw [Nat.min_eq_right h] at hwrite
    exact hwrite

end Medium

inductive Step where
  | scan (source : List UInt8) (offset : Nat) (valid : TokenSet)
  | resume (medium : Medium)

inductive Seen where
  | scanned (result : Logged (Scanner.Scanned ByteReader))
  | resumed (state : State)

def keeping (scanner : Scanner) : List Step → List Seen
  | [] => []
  | .scan source offset valid :: steps =>
    let result := scanner.scan (ByteReader.ofBytes source offset) valid
    .scanned result :: keeping result.value.scanner steps
  | .resume _ :: steps => .resumed scanner.state :: keeping scanner steps

def restoring (scanner : Scanner) : List Step → Except Fault (List Seen)
  | [] => .ok []
  | .scan source offset valid :: steps =>
    let result := scanner.scan (ByteReader.ofBytes source offset) valid
    (restoring result.value.scanner steps).map (.scanned result :: ·)
  | .resume medium :: steps =>
    let fresh : Scanner := { options := scanner.options }
    match (fresh.restore (medium.bytes scanner)).value with
    | .ok resumed => (restoring resumed steps).map (.resumed resumed.state :: ·)
    | .error fault => .error fault

def HasRoom (scanner : Scanner) : List Step → Prop
  | [] => True
  | .scan source offset valid :: steps =>
    HasRoom (scanner.scan (ByteReader.ofBytes source offset) valid).value.scanner steps
  | .resume medium :: steps =>
    scanner.Fits ∧ medium.HasRoom scanner.options.capacity ∧ HasRoom scanner steps

instance HasRoom.decidable : (scanner : Scanner) → (steps : List Step) →
    Decidable (HasRoom scanner steps)
  | _, [] => inferInstanceAs (Decidable True)
  | scanner, .scan source offset valid :: steps =>
    decidable (scanner.scan (ByteReader.ofBytes source offset) valid).value.scanner steps
  | scanner, .resume medium :: steps =>
    have := decidable scanner steps
    inferInstanceAs (Decidable (scanner.Fits ∧ medium.HasRoom scanner.options.capacity ∧ _))

theorem restoring_eq_keeping {scanner : Scanner} {steps : List Step}
    (hstate : scanner.state.WellFormed) (hroom : HasRoom scanner steps) :
    restoring scanner steps = .ok (keeping scanner steps) := by
  induction steps generalizing scanner with
  | nil => rfl
  | cons step steps ih =>
    cases step with
    | scan source offset valid =>
      rw [restoring, keeping, ih]
      . rfl
      . apply Scanner.wellFormed_scan _ _ hstate
      . exact hroom
    | resume medium =>
      obtain ⟨hfits, hmedium, hroom⟩ := hroom
      rw [restoring, keeping]
      -- The new scanner is the one that was kept
      rw [Medium.bytes_eq_encode hmedium, Scanner.restore_encode hstate hfits]
      dsimp only
      rw [ih hstate hroom]
      rfl

theorem restoring_within_literal :
    let scanner : Scanner :=
      {
        options := { capacity := 4 }
        state := { indents := .push .base 4 (by decide), delimiters := #[⟨0x11⟩] }
      }
    let steps : List Step :=
      [
        .scan [0x61, 0x27] 0 (.ofList [.stringContent, .stringEnd]),
        .resume (.buffer #[0xaa, 0xaa, 0xaa, 0xaa]),
        .scan [0x61, 0x27] 1 (.ofList [.stringContent, .stringEnd]),
        .resume .owned
      ]
    scanner.state.WellFormed ∧ HasRoom scanner steps ∧
      restoring scanner steps = .ok (keeping scanner steps) := by
  intro scanner steps
  have hstate : scanner.state.WellFormed := by decide
  have hroom : HasRoom scanner steps := by decide +kernel
  exact ⟨hstate, hroom, restoring_eq_keeping hstate hroom⟩

end Session

end Offside
