import Mathlib.Algebra.Group.Int.Defs
import Mathlib.Algebra.Group.Nat.Defs
import TapeDialects.Proofs.Tape.Stable

/-!
# Moves of the pointer

What moving the pointer does: inside the tape it changes the pointer, and beyond the ends the edge
decides. A move leaves every cell as it is, also where it makes the tape longer.
-/

namespace TapeDialects.Tape

open Act

variable {t : Tape} {i : Nat} {v target : Int}

theorem get_of_get? (h : t.get? t.ptr = some v) : t.get = v := by
  obtain ⟨hi, rfl⟩ := Array.getElem?_eq_some_iff.1 h
  simp [get, hi]

/-! ### Steps inside the tape -/

theorem seek_of_lt (hi : i < t.cells.size) : seek i t = (.ok (), { t with ptr := i }) := by
  rw [seek, if_pos (by omega)]
  rfl

theorem shift_next (hp : t.ptr + 1 < t.cells.size) :
    shift 1 t = (.ok (), { t with ptr := t.ptr + 1 }) :=
  seek_of_lt hp

theorem shift_prev (hi : t.ptr = i + 1) (hp : t.ptr < t.cells.size) :
    shift (-1) t = (.ok (), { t with ptr := i }) := by
  have htarget : (t.ptr : Int) + -1 = i := by omega
  rw [shift, htarget, seek_of_lt (by omega)]

/-! ### Edges -/

/-- The tape with zeros behind its end, as many as it lacks to `n` cells. -/
def extended (t : Tape) (n : Nat) : Tape :=
  { t with cells := t.cells ++ Array.replicate (n - t.cells.size) 0 }

theorem extended_of_le {n : Nat} (h : n ≤ t.cells.size) : t.extended n = t := by
  rw [extended, Nat.sub_eq_zero_of_le h, Array.replicate_zero, Array.append_empty]

theorem size_extended (t : Tape) (n : Nat) : (t.extended n).cells.size = max t.cells.size n := by
  rw [extended, Array.size_append, Array.size_replicate]
  omega

theorem extended_extended (t : Tape) (n m : Nat) :
    (t.extended n).extended m = t.extended (max m n) := by
  have hsize := t.size_extended n
  unfold extended at hsize ⊢
  rw [hsize, Array.append_assoc, Array.replicate_append_replicate]
  congr 3
  omega

theorem isWord_iff : IsWord v ↔ -2 ^ 63 ≤ v ∧ v < 2 ^ 63 := by
  rw [IsWord, Int64.toInt_minValue, Int64.toInt_maxValue]
  omega

theorem signedIndex_of_lt (hi : i < 2 ^ 63) : signedIndex i = i := by
  unfold signedIndex
  exact Int.bmod_eq_of_le (by omega) (by omega)

theorem seek_error (he : t.edge = .error) :
    seek target t =
      if 0 ≤ target ∧ target < t.cells.size then (.ok (), { t with ptr := target.toNat })
      else (.error (.pointerOutOfRange target t.cells.size), t) := by
  rw [seek, he]

theorem seek_wrap (he : t.edge = .wrap) :
    seek target t = (.ok (), { t with ptr := (target % t.cells.size).toNat }) := by
  rw [seek, he]
  split
  · next h => rw [Int.emod_eq_of_lt h.1 h.2]
  · rfl

section Grow

variable (he : t.edge = .grow)
include he

theorem seek_grow (h0 : 0 ≤ target) (hlt : target < max t.cells.size growLimit) :
    seek target t = (.ok (), { t.extended (target.toNat + 1) with ptr := target.toNat }) := by
  by_cases hin : target < t.cells.size
  · rw [seek, if_pos ⟨h0, hin⟩, extended_of_le (by omega)]
  · rw [seek, if_neg (by omega), he]
    dsimp only
    rw [if_pos h0, growTo, if_neg (by omega)]
    rfl

theorem seek_grow_limit (hi : max t.cells.size growLimit ≤ i) :
    seek i t = (.error (.pointerOutOfRange (signedIndex i) t.cells.size), t) := by
  rw [seek, if_neg (by omega), he]
  dsimp only
  rw [if_pos (Int.natCast_nonneg i), Int.toNat_natCast, growTo, if_pos (by omega)]

theorem seek_grow_negative (h : target < 0) :
    seek target t = (.error (.pointerOutOfRange target t.cells.size), t) := by
  rw [seek, if_neg (by omega), he]
  dsimp only
  rw [if_neg (by omega)]

end Grow

/-! ### Steps from the last cell -/

section Edge

variable (hp : t.ptr + 1 = t.cells.size)
include hp

theorem shift_end : shift 1 t = seek t.cells.size t := by
  rw [shift]
  congr
  omega

theorem shift_error (he : t.edge = .error) :
    shift 1 t = (.error (.pointerOutOfRange t.cells.size t.cells.size), t) := by
  rw [shift_end hp, seek_error he, if_neg (by omega)]

theorem shift_wrap (he : t.edge = .wrap) : shift 1 t = (.ok (), { t with ptr := 0 }) := by
  rw [shift_end hp, seek_wrap he, Int.emod_self]
  rfl

theorem shift_grow (he : t.edge = .grow) (hl : t.cells.size < growLimit) :
    shift 1 t = (.ok (), { t with cells := t.cells.push 0, ptr := t.cells.size }) := by
  have hpush : t.extended (t.cells.size + 1) = { t with cells := t.cells.push 0 } := by
    simp [extended]
  rw [shift_end hp, seek_grow he (by omega) (by omega), Int.toNat_natCast, hpush]

theorem shift_grow_limit (he : t.edge = .grow) (hl : growLimit ≤ t.cells.size) :
    shift 1 t = (.error (.pointerOutOfRange (signedIndex t.cells.size) t.cells.size), t) := by
  rw [shift_end hp, seek_grow_limit he (by omega)]

end Edge

/-! ### Cells that stay -/

theorem keeps_growTo_get? (k : Nat) : Keeps (growTo k) fun t => t.get? i = some v := by
  intro t ht
  unfold growTo
  split
  · exact ht
  · obtain ⟨hi, _⟩ := Array.getElem?_eq_some_iff.1 ht
    exact (Array.getElem?_append_left hi).trans ht

/-- A cell that is there is not changed where the pointer moves. -/
theorem keeps_seek_get? (target : Int) : Keeps (seek target) fun t => t.get? i = some v :=
  keeps_seek_of_growTo (fun _ _ ht => ht) keeps_growTo_get? target

end TapeDialects.Tape
