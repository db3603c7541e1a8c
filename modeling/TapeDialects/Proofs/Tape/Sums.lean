import Mathlib.Data.Int.ModEq
import Mathlib.Algebra.BigOperators.Group.List.Basic
import TapeDialects.Proofs.Act.Series
import TapeDialects.Proofs.Tape.Bitwise
import TapeDialects.Proofs.Tape.Moves

/-!
# Sums in a cell

What a series of additions to one cell comes to. Where cells wrap around, each addition is exact on
the bits of the cell, and so is their sum, in whatever order they are made. Where cells do not, the
cell holds the sum as long as every sum on the way fits. Each addition is one of words of 64 bits,
whose sum has to be a word as well (`Tape.AddsInWords`).
-/

namespace TapeDialects

theorem MachineConfig.bits_eq_bits_iff_modEq (c : MachineConfig) (v w : Int) :
    c.bits v = c.bits w ↔ v ≡ w [ZMOD 2 ^ c.cellWidth] := by
  rw [c.bits_eq_bits_iff, MachineConfig.valueCount, Nat.one_shiftLeft, Nat.cast_pow, Nat.cast_ofNat,
    Int.ModEq]

/-- The values of cells, of which none has more than 32 bits. -/
theorem MachineConfig.Valid.bounds_of_fits {c : MachineConfig} (hc : c.Valid) {v : Int}
    (hv : c.Fits v) : -2 ^ 32 ≤ v ∧ v < 2 ^ 32 := by
  have hcount : c.valueCount ≤ 2 ^ 32 := by
    rw [MachineConfig.valueCount, Nat.one_shiftLeft]
    exact Nat.pow_le_pow_right (by decide) hc.cellWidth_le
  unfold MachineConfig.Fits MachineConfig.cellMin MachineConfig.cellMax at hv
  split at hv <;> omega

namespace Tape

open Act

/-- The sum of the cell and the next delta is a word wherever the deltas come to, and so is, where
cells wrap around, its distance from the least value. -/
def AddsInWords (t : Tape) (deltas : List Int) : Prop :=
  ∀ front d u, front ++ [d] <+: deltas → forM front add t = (.ok (), u) →
    IsWord (u.get + d) ∧ (u.wrapCell = true → IsWord (u.get + d - u.least))

variable {c : MachineConfig} {t : Tape} {deltas : List Int}

theorem get_add_sum_concat (t : Tape) (front : List Int) (d : Int) :
    t.get + (front ++ [d]).sum = t.get + front.sum + d := by
  rw [List.sum_append, List.sum_singleton, Int.add_assoc]

namespace Conforms

variable (h : t.Conforms c)
include h

theorem add_withCell_wrapping (hc : c.Valid) (hw : c.wrapCell = true) {v : Int} (hv : c.Fits v)
    (d : Int) : ∃ w, c.Represents w (c.bits v + c.bits d) ∧
      add d (t.withCell v) = (.ok (), t.withCell w) := by
  obtain ⟨w, hr, hset⟩ := (h.withCell hv).set_of_wrapCell hc hw (v + d)
  rw [c.bits_add] at hr
  rw [withCell_withCell] at hset
  exact ⟨w, hr, by rw [add, h.get_withCell, hset]⟩

theorem add_withCell_strict (hw : c.wrapCell = false) {v : Int} (hv : c.Fits v) (d : Int) :
    add d (t.withCell v) =
      if c.Fits (v + d) then (.ok (), t.withCell (v + d))
      else (.error (.cellOverflow (v + d) c.cellMin c.cellMax), t.withCell v) := by
  rw [add, h.get_withCell, (h.withCell hv).set_of_strict hw, withCell_withCell]

theorem series_add_wrapping (hc : c.Valid) (hw : c.wrapCell = true) :
    Series add t (fun _ => True)
      (fun front u => ∃ v, c.Represents v (c.bits (t.get + front.sum)) ∧ u = t.withCell v)
      fun _ _ _ => False where
  allowed_nil := trivial
  reached_nil := by
    refine ⟨t.get, ?_, h.withCell_get.symm⟩
    rw [List.sum_nil, Int.add_zero]
    exact hc.represents h.get_mem
  goes := by
    rintro front d _ ⟨v, hv, rfl⟩ _
    obtain ⟨w, hr, hadd⟩ := h.add_withCell_wrapping hc hw hv.fits d
    rw [hv.bits_eq, ← c.bits_add, ← get_add_sum_concat] at hr
    exact ⟨_, hadd, w, hr, rfl⟩
  refuses _ _ _ _ hn := absurd trivial hn

theorem series_add_strict (hw : c.wrapCell = false) :
    Series add t (fun front => c.Fits (t.get + front.sum))
      (fun front u => c.Fits (t.get + front.sum) ∧ u = t.withCell (t.get + front.sum))
      fun front _ f => f = .cellOverflow (t.get + front.sum) c.cellMin c.cellMax where
  allowed_nil := by
    rw [List.sum_nil, Int.add_zero]
    exact h.get_mem
  reached_nil := by
    rw [List.sum_nil, Int.add_zero, h.withCell_get]
    exact ⟨h.get_mem, rfl⟩
  goes := by
    rintro front d _ ⟨hf, rfl⟩ hd
    rw [get_add_sum_concat] at hd ⊢
    exact ⟨_, (h.add_withCell_strict hw hf d).trans (if_pos hd), hd, rfl⟩
  refuses := by
    rintro front d _ ⟨hf, rfl⟩ hd
    rw [get_add_sum_concat] at hd ⊢
    exact ⟨_, (h.add_withCell_strict hw hf d).trans (if_neg hd), rfl⟩

/-- Deltas of at most `2 ^ 62`, of either sign, form words. -/
theorem addsInWords_of_le (hc : c.Valid) (hd : ∀ d ∈ deltas, -2 ^ 62 ≤ d ∧ d ≤ 2 ^ 62) :
    t.AddsInWords deltas := by
  intro front d u hfront hrun
  have hkeeps d : Keeps (add d) (Conforms c) := fun t => keeps_set hc (t.get + d) t
  have hu : u.Conforms c := (keeps_forM hkeeps front).of_eq h hrun
  have hget := hc.bounds_of_fits hu.get_mem
  have hleast := hc.bounds_of_fits ⟨Int.le_refl _, Int.le_trans hu.get_mem.1 hu.get_mem.2⟩
  have hbound := hd d (hfront.subset (by simp))
  rw [isWord_iff, isWord_iff, hu.least_eq]
  omega

end Conforms

/-- Deltas that form words: a cell that wraps around ends with the one value that fits and is
congruent to the sum, in every order of the summands. One that does not ends with the sum itself if
all sums on the way fit; else it keeps the last of them that does, and the fault names the next.
Nothing but the cell changes. -/
theorem forM_add (hc : c.Valid) (h : t.Conforms c) (deltas : List Int) :
    (c.wrapCell = true →
      ∃ v, (c.Fits v ∧ v ≡ t.get + deltas.sum [ZMOD 2 ^ c.cellWidth]) ∧
        (∀ w, c.Fits w → w ≡ t.get + deltas.sum [ZMOD 2 ^ c.cellWidth] → w = v) ∧
        ∀ deltas', deltas.Perm deltas' → t.AddsInWords deltas' →
          forM deltas' add t = (.ok (), t.withCell v)) ∧
    (c.wrapCell = false → t.AddsInWords deltas →
      ((forM deltas add t).1 = .ok () ↔
        ∀ front, front <+: deltas → c.Fits (t.get + front.sum)) ∧
      ((∀ front, front <+: deltas → c.Fits (t.get + front.sum)) →
        forM deltas add t = (.ok (), t.withCell (t.get + deltas.sum))) ∧
      ∀ front d back, deltas = front ++ d :: back →
        (∀ p, p <+: front → c.Fits (t.get + p.sum)) →
        ¬ c.Fits (t.get + (front ++ [d]).sum) →
        IsWord (t.get + (front ++ [d]).sum) ∧
          forM deltas add t =
            (.error (.cellOverflow (t.get + (front ++ [d]).sum) c.cellMin c.cellMax),
              t.withCell (t.get + front.sum))) := by
  constructor
  · intro hw
    have hseries := h.series_add_wrapping hc hw
    obtain ⟨_, _, v, hv, _⟩ := hseries.reached deltas fun _ _ => trivial
    have hmod := (c.bits_eq_bits_iff_modEq v _).1 hv.bits_eq
    refine ⟨v, ⟨hv.fits, hmod⟩, fun w hf hm => ?_, fun deltas' hperm _ => ?_⟩
    · exact hv.unique w hf ((c.bits_eq_bits_iff_modEq w _).2 hm)
    · obtain ⟨_, hrun, w, hr, rfl⟩ := hseries.reached deltas' fun _ _ => trivial
      rw [← hperm.sum_eq] at hr
      rwa [hv.unique w hr.fits hr.bits_eq] at hrun
  · intro hw hwords
    have hseries := h.series_add_strict hw
    refine ⟨hseries.ok_iff, fun hall => ?_, ?_⟩
    · obtain ⟨_, hrun, _, rfl⟩ := hseries.reached deltas hall
      exact hrun
    · rintro front d back rfl hall hd
      obtain ⟨_, _, hfront, ⟨_, rfl⟩, hrun, rfl⟩ := hseries.refused hall hd back
      have hsum := (hwords front d _ (by simp) hfront).1
      rw [h.get_withCell, ← get_add_sum_concat] at hsum
      exact ⟨hsum, hrun⟩

/-- Four bits with a sign, with a policy for values that do not fit. -/
def signedNibbles (wrap : Bool) : MachineConfig :=
  { tapeSize := 2, cellWidth := 4, signedCell := true, wrapCell := wrap }

theorem valid_signedNibbles (wrap : Bool) : (signedNibbles wrap).Valid := by
  cases wrap <;> exact ⟨by decide, by decide, by decide⟩

/-- The sum `116` is congruent to `4`, and the sum `8` is the first that does not fit. -/
theorem forM_add_signedNibbles :
    (∀ wrap, (signedNibbles wrap).Valid) ∧
    (∀ wrap, (ofConfig (signedNibbles wrap)).Conforms (signedNibbles wrap)) ∧
    (∀ wrap, (ofConfig (signedNibbles wrap)).AddsInWords [7, 1, -3]) ∧
    (∀ deltas', [7, 9, 100].Perm deltas' →
      (ofConfig (signedNibbles true)).AddsInWords deltas' ∧
      forM deltas' add (ofConfig (signedNibbles true)) =
        (.ok (), (ofConfig (signedNibbles true)).withCell 4)) ∧
    forM [7, 1, -3] add (ofConfig (signedNibbles false)) =
      (.error (.cellOverflow 8 (-8) 7), (ofConfig (signedNibbles false)).withCell 7) := by
  have hc := valid_signedNibbles
  have ht wrap := conforms_ofConfig (hc wrap)
  obtain ⟨v, -, hunique, hrun⟩ := (forM_add (hc true) (ht true) [7, 9, 100]).1 rfl
  obtain rfl : 4 = v := hunique 4 (by decide) (by decide)
  have hwords wrap : (ofConfig (signedNibbles wrap)).AddsInWords [7, 1, -3] :=
    (ht wrap).addsInWords_of_le (hc wrap) (by decide)
  have hseven := ((forM_add (hc false) (ht false) [7]).2 rfl
    ((ht false).addsInWords_of_le (hc false) (by decide))).1.1 (by decide)
  have hfault := ((forM_add (hc false) (ht false) [7, 1, -3]).2 rfl (hwords false)).2.2
    [7] 1 [-3] rfl hseven (by decide)
  refine ⟨hc, ht, hwords, fun deltas' hperm => ?_, hfault.2⟩
  have hsmall : ∀ d ∈ [7, 9, 100], -2 ^ 62 ≤ d ∧ d ≤ (2 ^ 62 : Int) := by decide
  have hwords' := (ht true).addsInWords_of_le (hc true) fun d hd => hsmall d (hperm.mem_iff.2 hd)
  exact ⟨hwords', hrun deltas' hperm hwords'⟩

end Tape

end TapeDialects
