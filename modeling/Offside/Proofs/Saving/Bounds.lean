import Offside.Proofs.Saving.Buffer
import Offside.Proofs.Saving.Shortest
import Offside.Scanner

/-!
This module contains the proof that a state is saved within the part of a buffer that it may take up:
no byte outside of that part is asked for, and all bytes behind the state stay what they were.
-/

namespace Offside

theorem Varint.length_encode_le_five (level : UInt32) : (encode level).length ≤ 5 := by
  apply encode.length_go_le
  exact Nat.lt_trans level.toNat_lt (by decide)

namespace State

def overwrite? (buffer : Array UInt8) (limit start : Nat) : List UInt8 → Option (Array UInt8)
  | [] => some buffer
  | byte :: bytes =>
    if h : start < min buffer.size limit then
      overwrite? (buffer.set start byte (Nat.lt_of_lt_of_le h (Nat.min_le_left ..))) limit (start + 1) bytes
    else
      none

def writeLevels? (buffer : Array UInt8) (start limit : Nat) :
    List UInt32 → Option (Nat × Array UInt8)
  | [] => some (start, buffer)
  | level :: levels => do
    let length := (Varint.encode level).length
    let five ← overwrite? (.replicate 5 0) 5 0 (Varint.encode level)
    if five.size < length then
      none
    else if start + length ≤ limit then
      let buffer ← overwrite? buffer limit start (five.toList.take length)
      writeLevels? buffer (start + length) limit levels
    else
      return (start, buffer)

/--
Save a state as `write` does, but give up where an index or the end of a range is not within what it is
an index or a range of.
-/
def write? (state : State) (buffer : Array UInt8) (limit : Nat) : Option (Nat × Array UInt8) :=
  let limit := min buffer.size limit
  if buffer.size < limit then
    none
  else if limit = 0 then
    some (0, buffer)
  else
    let count := min (min state.delimiters.size 255) (limit - 1)
    if state.delimiters.size < count ∨ limit < 1 + count then
      none
    else do
      let flags := (state.delimiters.toList.take count).map Delimiter.bits
      let buffer ← overwrite? buffer limit 0 (.ofNat count :: flags)
      writeLevels? buffer (1 + count) limit state.indents.blocks

variable {buffer : Array UInt8} {limit start : Nat} {bytes : List UInt8}

theorem overwrite?_eq (h : start + bytes.length ≤ min buffer.size limit) :
    overwrite? buffer limit start bytes = some (overwrite buffer start bytes) := by
  induction bytes generalizing buffer start with
  | nil => rfl
  | cons byte bytes ih =>
    rw [List.length_cons] at h
    have hstart : start < min buffer.size limit := by omega
    have hbuffer : start < buffer.size := Nat.lt_of_lt_of_le hstart (Nat.min_le_left ..)
    have hset : buffer.setIfInBounds start byte = buffer.set start byte hbuffer := by
      rw [Array.setIfInBounds, dif_pos hbuffer]
    rw [overwrite?, dif_pos hstart, ih, overwrite, hset]
    rw [Array.size_set]
    omega

theorem overwrite?_five (level : UInt32) :
    ∃ five, overwrite? (.replicate 5 0) 5 0 (Varint.encode level) = some five ∧ five.size = 5 ∧
      five.toList.take (Varint.encode level).length = Varint.encode level := by
  have hle := Varint.length_encode_le_five level
  refine ⟨_, overwrite?_eq ?_, ?_, ?_⟩
  . rw [Array.size_replicate, Nat.zero_add]
    exact hle
  . rw [size_overwrite, Array.size_replicate]
  . rw [toList_overwrite_zero, List.take_left]
    rw [Array.size_replicate]
    exact hle

theorem writeLevels?_eq (levels : List UInt32) (hlimit : limit ≤ buffer.size) :
    writeLevels? buffer start limit levels = some (writeLevels buffer start limit levels) := by
  induction levels generalizing buffer start with
  | nil => rfl
  | cons level levels ih =>
    obtain ⟨five, hfive, hsize, hbytes⟩ := overwrite?_five level
    have hcode : ¬ five.size < (Varint.encode level).length := by
      rw [hsize, Nat.not_lt]
      apply Varint.length_encode_le_five
    dsimp only [writeLevels?, writeLevels]
    rw [hfive, Option.bind_eq_bind, Option.bind_some, if_neg hcode]
    split
    . next hfits =>
      have hroom : start + (Varint.encode level).length ≤ min buffer.size limit := by
        rw [Nat.min_eq_right hlimit]
        exact hfits
      rw [hbytes, overwrite?_eq hroom, Option.bind_some, ih]
      rw [size_overwrite]
      exact hlimit
    . rfl

theorem write?_eq (state : State) (buffer : Array UInt8) (limit : Nat) :
    state.write? buffer limit = some (state.write buffer limit) := by
  have hlimit : min buffer.size limit ≤ buffer.size := Nat.min_le_left ..
  dsimp only [write?, write]
  generalize min buffer.size limit = limit at hlimit ⊢
  rw [if_neg (Nat.not_lt.2 hlimit)]
  split
  . rfl
  . next hpos =>
    let count := min (min state.delimiters.size 255) (limit - 1)
    have hcount : ¬ (state.delimiters.size < count ∨ limit < 1 + count) := by
      simp only [count]
      omega
    have hroom : 0 + (UInt8.ofNat count :: (state.delimiters.toList.take count).map Delimiter.bits).length
        ≤ min buffer.size limit := by
      rw [List.length_cons, List.length_map, List.length_take, Array.length_toList]
      omega
    rw [if_neg hcount, overwrite?_eq hroom, Option.bind_eq_bind, Option.bind_some]
    apply writeLevels?_eq
    rw [size_overwrite]
    exact hlimit

theorem toList_drop_write (state : State) (buffer : Array UInt8) (limit : Nat) :
    (state.write buffer limit).2.toList.drop (state.write buffer limit).1
      =
    buffer.toList.drop (state.write buffer limit).1 := by
  have hle := length_encode_le state (min buffer.size limit)
  rw [write_eq, toList_overwrite_zero (by omega), List.drop_left]

end State

theorem Scanner.saveInto_within_room (scanner : Scanner) (buffer : Array UInt8) :
    let room := min buffer.size scanner.options.capacity
    let (length, written) := (scanner.saveInto buffer).value
    scanner.state.write? buffer scanner.options.capacity = some (length, written) ∧
      length ≤ room ∧ written.size = buffer.size ∧
      written.toList.take length = (scanner.state.save room).value ∧
      written.toList.drop length = buffer.toList.drop length := by
  refine ⟨scanner.state.write?_eq _ _, ?_, ?_, ?_, ?_⟩
  . rw [Scanner.saveInto, State.saveInto]
    dsimp only
    rw [State.write_eq]
    apply State.length_encode_le
  . rw [Scanner.saveInto, State.saveInto]
    dsimp only
    rw [State.write_eq, State.size_overwrite]
  . apply State.toList_take_write
  . apply State.toList_drop_write

end Offside
