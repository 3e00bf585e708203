import Offside.Proofs.Saving.RoundTrip
import Offside.State.Write

/-!
This module contains the proof that saving into a buffer writes exactly the bytes of the saved state
and leaves the other bytes of the buffer alone.
-/

namespace Offside

namespace State

theorem overwrite_append (buffer : Array UInt8) (start : Nat) (lhs rhs : List UInt8) :
    overwrite (overwrite buffer start lhs) (start + lhs.length) rhs
      =
    overwrite buffer start (lhs ++ rhs) := by
  induction lhs generalizing buffer start with
  | nil => rfl
  | cons byte lhs ih =>
    rw [List.cons_append, overwrite, overwrite, ← ih, List.length_cons, Nat.add_right_comm,
      Nat.add_assoc]

theorem toList_overwrite {buffer : Array UInt8} {before old after bytes : List UInt8}
    (hbuffer : buffer.toList = before ++ (old ++ after)) (hlength : old.length = bytes.length) :
    (overwrite buffer before.length bytes).toList = before ++ (bytes ++ after) := by
  induction bytes generalizing buffer before old with
  | nil =>
    rw [List.length_nil, List.length_eq_zero_iff] at hlength
    rw [overwrite, hbuffer, hlength]
  | cons byte bytes ih =>
    cases old with
    | nil => simp at hlength
    | cons first old =>
      have hset : (buffer.setIfInBounds before.length byte).toList
          = (before ++ [byte]) ++ (old ++ after) := by
        simp [hbuffer]
      have := ih hset (by simpa using hlength)
      rw [List.length_append, List.length_singleton] at this
      rw [overwrite, this, List.append_assoc, List.singleton_append, List.cons_append]

theorem toList_overwrite_zero {buffer : Array UInt8} {bytes : List UInt8}
    (h : bytes.length ≤ buffer.size) :
    (overwrite buffer 0 bytes).toList = bytes ++ buffer.toList.drop bytes.length := by
  apply @toList_overwrite buffer [] (buffer.toList.take bytes.length)
  . rw [List.nil_append, List.take_append_drop]
  . rw [← Array.length_toList] at h
    rw [List.length_take, Nat.min_eq_left h]

theorem writeLevels_eq (buffer : Array UInt8) {start limit : Nat} (levels : List UInt32)
    (h : start ≤ limit) :
    writeLevels buffer start limit levels =
      (start + levelBytes (fitting (limit - start) levels),
        overwrite buffer start ((fitting (limit - start) levels).flatMap Varint.encode)) := by
  induction levels generalizing buffer start with
  | nil => rfl
  | cons level levels ih =>
    rw [writeLevels, fitting]
    split
    . next hfits =>
      rw [if_pos (by omega), ih _ hfits, overwrite_append, levelBytes_cons, List.flatMap_cons,
        Nat.add_assoc, Nat.sub_sub]
    . next hfits =>
      rw [if_neg (by omega)]
      rfl

theorem write_eq (state : State) (buffer : Array UInt8) (limit : Nat) :
    state.write buffer limit =
      ((state.encode (min buffer.size limit)).length,
        overwrite buffer 0 (state.encode (min buffer.size limit))) := by
  rw [write]
  generalize min buffer.size limit = room
  dsimp only
  split
  . next hroom =>
    rw [hroom, encode_zero]
    rfl
  . next hroom =>
    -- The buffer is written from other counts than the ones that `encode` is made of
    have hcount : min (min state.delimiters.size 255) (room - 1)
        = (state.savedDelimiters room).length := by
      rw [savedDelimiters, List.length_take, Array.length_toList]
      omega
    have hflags : state.delimiters.toList.take (state.savedDelimiters room).length
        = state.savedDelimiters room := by
      rw [eq_comm, ← List.prefix_iff_eq_take]
      apply List.take_prefix
    have hblocks : fitting (room - (1 + (state.savedDelimiters room).length)) state.indents.blocks
        = state.savedBlocks room := by
      rw [savedBlocks, Nat.sub_sub]
    have hle : 1 + (state.savedDelimiters room).length ≤ room := by
      rw [savedDelimiters, List.length_take]
      omega
    rw [hcount, hflags, writeLevels_eq _ _ hle, hblocks, encode_eq_cons state hroom]
    rw [← List.cons_append, ← overwrite_append, List.length_append, List.length_cons,
      List.length_map, Nat.zero_add, Nat.add_comm 1]
    rfl

theorem toList_take_write (state : State) (buffer : Array UInt8) (limit : Nat) :
    (state.write buffer limit).2.toList.take (state.write buffer limit).1
      =
    state.encode (min buffer.size limit) := by
  have hle := length_encode_le state (min buffer.size limit)
  rw [write_eq, toList_overwrite_zero (by omega), List.take_left]

end State

end Offside
