import Offside.Event
import Offside.State
import Offside.Varint

/-!
This module contains the way in which a state is saved as bytes: the number of its delimiters, the
delimiters and the levels of its blocks, as far as there is room. Column 0 is never written.
-/

namespace Offside

namespace State

def fitting : (room : Nat) → List UInt32 → List UInt32
  | _, [] => []
  | room, level :: levels =>
    let length := (Varint.encode level).length
    if length ≤ room then level :: fitting (room - length) levels else []

def savedDelimiters (state : State) (capacity : Nat) : List Delimiter :=
  state.delimiters.toList.take (min 255 (capacity - 1))

def savedBlocks (state : State) (capacity : Nat) : List UInt32 :=
  fitting (capacity - 1 - (state.savedDelimiters capacity).length) state.indents.blocks

def encode (state : State) (capacity : Nat) : List UInt8 :=
  if capacity = 0 then
    []
  else
    let delimiters := state.savedDelimiters capacity
    .ofNat delimiters.length ::
      (delimiters.map Delimiter.bits ++ (state.savedBlocks capacity).flatMap Varint.encode)

def warnings (state : State) (capacity : Nat) : List Event :=
  if capacity = 0 then
    if state.isInitial then [] else [.noRoom]
  else
    let delimiters := (state.savedDelimiters capacity).length
    let blocks := (state.savedBlocks capacity).length
    (if delimiters < state.delimiters.size then
      [.delimitersTruncated state.delimiters.size delimiters] else []) ++
    (if blocks < state.indents.depth then
      [.blocksTruncated state.indents.depth blocks] else [])

def save (state : State) (capacity : Nat) : Logged (List UInt8) where
  value := state.encode capacity
  events := state.warnings capacity

theorem fitting_isPrefix (room : Nat) (levels : List UInt32) : fitting room levels <+: levels := by
  induction levels generalizing room with
  | nil => apply List.nil_prefix
  | cons level levels ih =>
    dsimp only [fitting]
    split
    . rw [List.prefix_cons_inj]
      apply ih
    . apply List.nil_prefix

theorem length_fitting_le (room : Nat) (levels : List UInt32) :
    ((fitting room levels).flatMap Varint.encode).length ≤ room := by
  induction levels generalizing room with
  | nil => simp [fitting]
  | cons level levels ih =>
    dsimp only [fitting]
    split
    . have := ih (room - (Varint.encode level).length)
      rw [List.flatMap_cons, List.length_append]
      omega
    . simp

theorem length_encode_le (state : State) (capacity : Nat) :
    (state.encode capacity).length ≤ capacity := by
  unfold encode
  split
  . simp
  . have hdelimiters : (state.savedDelimiters capacity).length ≤ capacity - 1 := by
      rw [savedDelimiters, List.length_take]
      omega
    have hblocks := length_fitting_le (capacity - 1 - (state.savedDelimiters capacity).length)
      state.indents.blocks
    simp only [savedBlocks, List.length_cons, List.length_append, List.length_map]
    omega

end State

end Offside
