import TapeDialects.Proofs.Act.Transfers
import TapeDialects.Proofs.Tape.Conforms

/-!
# Tapes under looser policies

A configuration relaxes another one if its cells wrap around where the other's do, and if its edge
is the same or the other's is the one that refuses, in which case its tape may be longer as well
(`MachineConfig.Relaxes`). What succeeds on a tape then succeeds on the tape with the looser
policies and zeros behind its end, and comes to the same (`Act.Transfers`): a pointer that stays on
the shorter tape never meets an edge.
-/

namespace TapeDialects

open Act

/-- The configuration `c'` is `c` with looser policies. -/
structure MachineConfig.Relaxes (c c' : MachineConfig) : Prop where
  cellWidth_eq : c'.cellWidth = c.cellWidth
  signedCell_eq : c'.signedCell = c.signedCell
  output_eq : c'.output = c.output
  stepLimit_eq : c'.stepLimit = c.stepLimit
  wrapCell_of : c.wrapCell = true → c'.wrapCell = true
  edge_of : c.edge = .error ∨ c'.edge = c.edge ∧ c'.tapeSize = c.tapeSize
  tapeSize_le : c.tapeSize ≤ c'.tapeSize

namespace MachineConfig.Relaxes

variable {c c' : MachineConfig}

theorem cellMin_eq (h : c.Relaxes c') : c'.cellMin = c.cellMin := by
  rw [cellMin, cellMin, valueCount, valueCount, h.signedCell_eq, h.cellWidth_eq]

theorem cellMax_eq (h : c.Relaxes c') : c'.cellMax = c.cellMax := by
  rw [cellMax, cellMax, valueCount, valueCount, h.signedCell_eq, h.cellWidth_eq]

end MachineConfig.Relaxes

namespace Tape

/-- The tape with the policies of `c'`, and with zeros for the cells that it has more than `c`. -/
def relax (c c' : MachineConfig) (t : Tape) : Tape :=
  { t with
    cells := t.cells ++ Array.replicate (c'.tapeSize - c.tapeSize) 0
    wrapCell := c'.wrapCell
    edge := c'.edge }

variable {c c' : MachineConfig} {t : Tape} {v w : Int}

@[simp] theorem least_relax (t : Tape) : (t.relax c c').least = t.least := rfl

@[simp] theorem greatest_relax (t : Tape) : (t.relax c c').greatest = t.greatest := rfl

@[simp] theorem wrapCell_relax (t : Tape) : (t.relax c c').wrapCell = c'.wrapCell := rfl

@[simp] theorem edge_relax (t : Tape) : (t.relax c c').edge = c'.edge := rfl

theorem size_le_relax (c c' : MachineConfig) (t : Tape) :
    t.cells.size ≤ (t.relax c c').cells.size := by
  simp [relax]

theorem cells_relax (h : c'.tapeSize = c.tapeSize) (t : Tape) :
    (t.relax c c').cells = t.cells := by
  simp [relax, h]

theorem get_relax (t : Tape) : (t.relax c c').get = t.get := by
  simp only [get, relax, Array.getD_eq_getD_getElem?, Array.getElem?_append,
    Array.getElem?_replicate]
  split
  · rfl
  · next h =>
    rw [Array.getElem?_eq_none (Nat.le_of_not_lt h)]
    split <;> rfl

theorem setCell_relax (t : Tape) {i : Nat} (hi : i < t.cells.size) (w : Int) :
    relax c c' { t with cells := t.cells.setIfInBounds i w } =
      { t.relax c c' with cells := (t.relax c c').cells.setIfInBounds i w } := by
  simp only [relax, Tape.mk.injEq, and_true]
  refine Array.ext_getElem? fun j => ?_
  simp only [Array.getElem?_append, Array.getElem?_setIfInBounds, Array.size_setIfInBounds,
    Array.size_append]
  by_cases hij : i = j
  · subst hij
    rw [if_pos hi, if_pos rfl, if_pos hi, if_pos rfl, if_pos (by omega)]
  · rw [if_neg hij, if_neg hij]

/-- Where the edge is the same, the tape is looser only in its cells. -/
theorem relax_eq_of_fixed (hf : c'.edge = c.edge ∧ c'.tapeSize = c.tapeSize)
    (ht : t.Configured c) : t.relax c c' = { t with wrapCell := c'.wrapCell } := by
  rw [relax, hf.1, ← ht.edge_eq, hf.2, Nat.sub_self, Array.replicate_zero, Array.append_empty]

theorem growTo_withWrapCell (i : Nat) (t : Tape) (b : Bool) :
    growTo i { t with wrapCell := b } =
      ((growTo i t).1, { (growTo i t).2 with wrapCell := b }) := by
  unfold growTo
  dsimp only
  split <;> rfl

theorem seek_withWrapCell (target : Int) (t : Tape) (b : Bool) :
    seek target { t with wrapCell := b } =
      ((seek target t).1, { (seek target t).2 with wrapCell := b }) := by
  obtain ⟨cells, ptr, least, greatest, wrapCell, edge⟩ := t
  unfold seek
  dsimp only
  split
  · rfl
  · cases edge with
    | error | wrap => rfl
    | grow =>
      dsimp only
      split
      · rw [growTo_withWrapCell target.toNat ⟨cells, ptr, least, greatest, wrapCell, .grow⟩ b]
        rcases growTo target.toNat ⟨cells, ptr, least, greatest, wrapCell, .grow⟩ with ⟨_ | _, t'⟩
        · rfl
        · rfl
      · rfl

variable (hc : c.Valid) (hr : c.Relaxes c')

include hr

/-- At the start of a program the tapes of any two machines are related. -/
theorem reset_relax {u : Tape} (ht : t.Configured c) (hu : u.Configured c') :
    (t.reset c.tapeSize).relax c c' = u.reset c'.tapeSize := by
  have hcells : Array.replicate c.tapeSize (0 : Int) ++
      Array.replicate (c'.tapeSize - c.tapeSize) 0 = Array.replicate c'.tapeSize 0 := by
    rw [Array.replicate_append_replicate, Nat.add_sub_cancel' hr.tapeSize_le]
  rw [relax, reset, reset, hcells, ht.least_eq, ht.greatest_eq, hu.least_eq, hu.greatest_eq,
    hu.wrapCell_eq, hu.edge_eq, hr.cellMin_eq, hr.cellMax_eq]

theorem fit_relax (ht : t.Configured c) (h : t.fit v = .ok w) : (t.relax c c').fit v = .ok w := by
  rw [fit, least_relax, greatest_relax, wrapCell_relax]
  unfold fit at h
  split at h
  · next hv => rwa [if_pos hv]
  · next hv =>
    rw [if_neg hv]
    split at h
    · next hw => rwa [if_pos (hr.wrapCell_of (ht.wrapCell_eq ▸ hw))]
    · contradiction

include hc

theorem transfers_set (v : Int) : Transfers (set v) (Conforms c) (relax c c') := by
  intro t a t' ht h
  refine ⟨(keeps_set hc v).of_eq ht h, ?_⟩
  unfold set at h
  split at h
  · next w hf =>
    cases h
    rw [set_apply_ok (fit_relax hr ht.toConfigured hf), setCell_relax t ht.ptr_lt]
    rfl
  · cases h

theorem transfers_seek (target : Int) : Transfers (seek target) (Conforms c) (relax c c') := by
  intro t a t' ht h
  have ht' := (keeps_seek hc target).of_eq ht h
  refine ⟨ht', ?_⟩
  rcases hr.edge_of with he | hf
  · obtain ⟨hin, rfl⟩ := ht.seek_eq_ok he h
    have hle := size_le_relax c c' t
    rw [seek, if_pos (by omega)]
    rfl
  · rw [relax_eq_of_fixed hf ht.toConfigured, relax_eq_of_fixed hf ht'.toConfigured,
      seek_withWrapCell, h]

theorem transfers_setAt (i : Nat) (v : Int) :
    Transfers (setAt i v) (Conforms c) (relax c c') := by
  intro t a t' ht h
  have ht' := (keeps_setAt hc i v).of_eq ht h
  refine ⟨ht', ?_⟩
  unfold setAt at h ⊢
  split at h
  · cases h
  · next w hfit =>
    rw [fit_relax hr ht.toConfigured hfit]
    dsimp only
    split at h
    · next hi =>
      cases h
      rw [if_pos (Nat.lt_of_lt_of_le hi (size_le_relax c c' t)), setCell_relax t hi]
    · next hi =>
      split at h
      · next he =>
        rcases hr.edge_of with hn | hf
        · rw [ht.edge_eq, hn] at he
          contradiction
        · rw [cells_relax hf.2, if_neg hi, edge_relax, hf.1, ← ht.edge_eq, if_pos he,
            relax_eq_of_fixed hf ht.toConfigured, relax_eq_of_fixed hf ht'.toConfigured,
            growTo_withWrapCell]
          split at h
          · next hg =>
            cases h
            rw [hg]
          · cases h
      · cases h

/-! ### Sequences -/

theorem transfers_add (delta : Int) : Transfers (add delta) (Conforms c) (relax c c') :=
  transfers_of_value set (fun t : Tape => t.get + delta) (fun t => by rw [get_relax])
    (transfers_set hc hr)

theorem transfers_shift (delta : Int) : Transfers (shift delta) (Conforms c) (relax c c') :=
  transfers_of_value seek (fun t : Tape => t.ptr + delta) (fun _ => rfl) (transfers_seek hc hr)

theorem transfers_complement (signed : Bool) :
    Transfers (complement signed) (Conforms c) (relax c c') :=
  transfers_of_value set
    (fun t : Tape => if signed then bitNot t.get else bitAnd (bitNot t.get) t.mask)
    (fun t => by rw [get_relax, mask, mask, least_relax, greatest_relax]) (transfers_set hc hr)

theorem transfers_shiftLeft : Transfers shiftLeft (Conforms c) (relax c c') :=
  transfers_of_value set (fun t : Tape => 2 * t.get) (fun t => by rw [get_relax])
    (transfers_set hc hr)

theorem transfers_shiftRight : Transfers shiftRight (Conforms c) (relax c c') :=
  transfers_of_value set (fun t : Tape => t.get / 2) (fun t => by rw [get_relax])
    (transfers_set hc hr)

theorem transfers_jumpRight : Transfers jumpRight (Conforms c) (relax c c') :=
  transfers_of_value shift (fun t : Tape => t.get) get_relax (transfers_shift hc hr)

theorem transfers_jumpLeft : Transfers jumpLeft (Conforms c) (relax c c') :=
  transfers_of_value shift (fun t : Tape => -t.get) (fun t => by rw [get_relax])
    (transfers_shift hc hr)

theorem transfers_combine (g : Int → Int → Int) :
    Transfers (combine g) (Conforms c) (relax c c') := by
  intro t a t' ht h
  unfold combine at h ⊢
  dsimp only at h ⊢
  split at h
  · next t₁ hs =>
    obtain ⟨ht₁, hs'⟩ := transfers_shift hc hr 1 t () t₁ ht hs
    rw [hs', get_relax]
    dsimp only
    rw [get_relax]
    exact transfers_set hc hr _ t₁ a t' ht₁ h
  · cases h

theorem transfers_storeChars (cs : List Char) :
    Transfers (storeChars cs) (Conforms c) (relax c c') := by
  induction cs with
  | nil => exact transfers_pure ()
  | cons ch cs ih =>
    exact transfers_bind (transfers_set hc hr _) fun _ =>
      transfers_bind (transfers_shift hc hr 1) fun _ => ih

theorem transfers_storeCharsAt (i : Nat) (cs : List Char) :
    Transfers (storeCharsAt i cs) (Conforms c) (relax c c') := by
  induction cs generalizing i with
  | nil => exact transfers_pure ()
  | cons ch cs ih => exact transfers_bind (transfers_setAt hc hr i _) fun _ => ih (i + 1)

theorem transfers_storePositions (table : TokenTable) (xs : List Instruction) (i : Nat) :
    Transfers (storePositions table xs i) (Conforms c) (relax c c') := by
  induction xs generalizing i with
  | nil => exact transfers_pure ()
  | cons x xs ih =>
    rw [storePositions]
    split
    · exact transfers_fail _
    · exact transfers_bind (transfers_setAt hc hr i _) fun _ => ih (i + 1)

/-- A longer tape holds more of a program that is longer than the tape. -/
theorem transfers_storeProgram (hs : c'.tapeSize = c.tapeSize) (table : TokenTable) (p : Program) :
    Transfers (storeProgram table p) (Conforms c) (relax c c') :=
  transfers_of_value (fun n => storePositions table (p.toList.take n) 0)
    (fun t : Tape => t.cells.size) (fun t => by rw [cells_relax hs])
    fun n => transfers_storePositions hc hr table (p.toList.take n) 0

end Tape

end TapeDialects
