import TapeDialects.Machine.Lockstep
import TapeDialects.Proofs.Act.Keeps
import TapeDialects.Tape.Bitwise

/-!
# Stable properties of tapes

Writing a cell, here or at an index, and moving the pointer are all that an effect does to a tape:
the other actions are sequences of these. A property that these three keep is stable
(`Tape.Stable`), and all actions on tapes keep it.
-/

namespace TapeDialects.Tape

open Act

/-- The pointer moves with or without new cells. -/
theorem keeps_seek_of_growTo {P : Tape → Prop} (hptr : ∀ t i, P t → P { t with ptr := i })
    (hgrow : ∀ i, Keeps (growTo i) P) (target : Int) : Keeps (seek target) P := by
  intro t h
  unfold seek
  split
  · exact hptr t _ h
  · split
    · exact h
    · exact hptr t _ h
    · split
      · have hg := hgrow target.toNat t h
        split
        · next t' heq =>
          rw [heq] at hg
          exact hptr t' _ hg
        · next f t' heq =>
          rw [heq] at hg
          exact hg
      · exact h

structure Stable (P : Tape → Prop) : Prop where
  keeps_set : ∀ v, Keeps (set v) P
  keeps_setAt : ∀ i v, Keeps (setAt i v) P
  keeps_seek : ∀ target, Keeps (seek target) P

namespace Stable

variable {P : Tape → Prop} (h : Stable P)
include h

theorem keeps_shift (delta : Int) : Keeps (shift delta) P := fun t => h.keeps_seek (t.ptr + delta) t

theorem keeps_add (delta : Int) : Keeps (add delta) P := fun t => h.keeps_set (t.get + delta) t

theorem keeps_combine (f : Int → Int → Int) : Keeps (combine f) P := by
  intro t ht
  have hs := h.keeps_shift 1 t ht
  unfold combine
  dsimp only
  split
  · next t' hg =>
    rw [hg] at hs
    exact h.keeps_set _ t' hs
  · next e t' hg =>
    rw [hg] at hs
    exact hs

theorem keeps_complement (signed : Bool) : Keeps (complement signed) P := fun t => h.keeps_set _ t

theorem keeps_shiftLeft : Keeps shiftLeft P := fun t => h.keeps_set _ t

theorem keeps_shiftRight : Keeps shiftRight P := fun t => h.keeps_set _ t

theorem keeps_jumpRight : Keeps jumpRight P := fun t => h.keeps_shift _ t

theorem keeps_jumpLeft : Keeps jumpLeft P := fun t => h.keeps_shift _ t

theorem keeps_storeChars (cs : List Char) : Keeps (storeChars cs) P := by
  induction cs with
  | nil => exact keeps_pure ()
  | cons ch cs ih =>
    exact keeps_bind (h.keeps_set _) fun _ => keeps_bind (h.keeps_shift 1) fun _ => ih

theorem keeps_storeCharsAt (i : Nat) (cs : List Char) : Keeps (storeCharsAt i cs) P := by
  induction cs generalizing i with
  | nil => exact keeps_pure ()
  | cons ch cs ih => exact keeps_bind (h.keeps_setAt i _) fun _ => ih (i + 1)

theorem keeps_storePositions (table : TokenTable) (xs : List Instruction) (i : Nat) :
    Keeps (storePositions table xs i) P := by
  induction xs generalizing i with
  | nil => exact keeps_pure ()
  | cons x xs ih =>
    rw [storePositions]
    split
    · exact keeps_fail _
    · exact keeps_bind (h.keeps_setAt i _) fun _ => ih (i + 1)

theorem keeps_storeProgram (table : TokenTable) (p : Program) : Keeps (storeProgram table p) P :=
  fun t => h.keeps_storePositions table _ 0 t

end Stable

end TapeDialects.Tape
