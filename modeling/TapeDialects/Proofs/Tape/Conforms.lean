import TapeDialects.Proofs.Tape.Stable

/-!
# Tapes that conform to a configuration

The invariant of the tape of a machine: its policies are those of the configuration, every cell
holds a value that fits, the pointer is on the tape, and the tape has the length that it started
with or, where it may grow, at most the greatest one (`Tape.Conforms`). Moving the pointer and
writing a cell keep it, and the other actions are sequences of these. The policies alone
(`Tape.Configured`) outlast also what breaks the rest, such as a tape of another length.
-/

namespace TapeDialects.Tape

open Act

/-- The policies of the tape are those of the configuration. -/
structure Configured (c : MachineConfig) (t : Tape) : Prop where
  least_eq : t.least = c.cellMin
  greatest_eq : t.greatest = c.cellMax
  wrapCell_eq : t.wrapCell = c.wrapCell
  edge_eq : t.edge = c.edge

structure Conforms (c : MachineConfig) (t : Tape) : Prop extends Configured c t where
  ptr_lt : t.ptr < t.cells.size
  cells_mem : ∀ v ∈ t.cells, c.cellMin ≤ v ∧ v ≤ c.cellMax
  size_ge : c.tapeSize ≤ t.cells.size
  size_fixed : c.edge ≠ .grow → t.cells.size = c.tapeSize
  size_le : t.cells.size ≤ max c.tapeSize growLimit

variable {c : MachineConfig} {t : Tape}

/-! ### Tapes at the start of a program -/

theorem configured_ofConfig (c : MachineConfig) : (ofConfig c).Configured c := ⟨rfl, rfl, rfl, rfl⟩

/-- Policies are neither cells nor the pointer. -/
theorem Configured.frame (h : t.Configured c) (cells : Array Int) (ptr : Nat) :
    Configured c { t with cells := cells, ptr := ptr } :=
  ⟨h.least_eq, h.greatest_eq, h.wrapCell_eq, h.edge_eq⟩

theorem Configured.reset (h : t.Configured c) (size : Nat) : (t.reset size).Configured c :=
  h.frame _ _

theorem conforms_zeros (hc : c.Valid) (h : t.Configured c) (hp : t.ptr = 0)
    (hz : t.cells = Array.replicate c.tapeSize 0) : t.Conforms c where
  toConfigured := h
  ptr_lt := by
    have := hc.tapeSize_pos
    simp only [hz, hp, Array.size_replicate]
    omega
  cells_mem := by
    intro v hv
    rw [hz] at hv
    rw [(Array.mem_replicate.1 hv).2]
    exact ⟨c.cellMin_nonpos, c.cellMax_nonneg hc.cellWidth_pos⟩
  size_ge := by simp [hz]
  size_fixed := by simp [hz]
  size_le := by
    rw [hz, Array.size_replicate]
    exact Nat.le_max_left _ _

theorem conforms_ofConfig (hc : c.Valid) : (ofConfig c).Conforms c :=
  conforms_zeros hc (configured_ofConfig c) rfl rfl

theorem Configured.conforms_reset (hc : c.Valid) (h : t.Configured c) :
    (t.reset c.tapeSize).Conforms c :=
  conforms_zeros hc (h.reset c.tapeSize) rfl rfl

/-! ### What a conforming tape tells -/

theorem Conforms.get?_ptr (h : t.Conforms c) : t.get? t.ptr = some t.get := by
  simp [get?, get, h.ptr_lt]

theorem Conforms.get_mem (h : t.Conforms c) : c.cellMin ≤ t.get ∧ t.get ≤ c.cellMax := by
  have hg : t.cells[t.ptr]? = some t.get := h.get?_ptr
  exact h.cells_mem t.get (Array.mem_of_getElem? hg)

theorem Conforms.fit_cell (h : t.Conforms c) : ∀ v ∈ t.cells, t.fit v = .ok v := by
  intro v hv
  apply fit_of_mem
  rw [h.least_eq, h.greatest_eq]
  exact h.cells_mem v hv

theorem Configured.span_eq (hc : c.Valid) (h : t.Configured c) :
    t.greatest - t.least + 1 = c.valueCount := by
  rw [h.least_eq, h.greatest_eq]
  exact c.cellMax_sub_cellMin hc.cellWidth_pos

theorem Configured.mem_of_fit (hc : c.Valid) (h : t.Configured c) {v w : Int}
    (hf : t.fit v = .ok w) : c.cellMin ≤ w ∧ w ≤ c.cellMax := by
  have hr : t.least ≤ t.greatest := by
    have hs := h.span_eq hc
    have := c.valueCount_pos
    omega
  have hm := Tape.mem_of_fit hr hf
  rwa [h.least_eq, h.greatest_eq] at hm

theorem Configured.exists_fit (h : t.Configured c) (hw : c.wrapCell = true) (v : Int) :
    ∃ w, t.fit v = .ok w := by
  rw [fit, h.wrapCell_eq, hw, if_pos rfl]
  split
  · exact ⟨v, rfl⟩
  · exact ⟨_, rfl⟩

/-! ### Cells and pointer -/

theorem Conforms.setCell (h : t.Conforms c) (i : Nat) {w : Int}
    (hw : c.cellMin ≤ w ∧ w ≤ c.cellMax) :
    Conforms c { t with cells := t.cells.setIfInBounds i w } where
  toConfigured := h.frame _ _
  ptr_lt := by simpa using h.ptr_lt
  cells_mem := by
    intro v hv
    rcases Array.mem_or_eq_of_mem_setIfInBounds hv with hv | rfl
    · exact h.cells_mem v hv
    · exact hw
  size_ge := by simpa using h.size_ge
  size_fixed := by simpa using h.size_fixed
  size_le := by simpa using h.size_le

theorem Conforms.movePtr (h : t.Conforms c) {i : Nat} (hi : i < t.cells.size) :
    Conforms c { t with ptr := i } :=
  ⟨h.frame _ _, hi, h.cells_mem, h.size_ge, h.size_fixed, h.size_le⟩

theorem keeps_set (hc : c.Valid) (v : Int) : Keeps (set v) (Conforms c) := by
  intro t h
  unfold set
  split
  · next w hf => exact h.setCell t.ptr (h.mem_of_fit hc hf)
  · exact h

theorem keeps_growTo (hc : c.Valid) (he : c.edge = .grow) (i : Nat) :
    Keeps (growTo i) (Conforms c) := by
  intro t h
  unfold growTo
  split
  · exact h
  · next hi =>
    have hs := h.size_le
    refine ⟨h.frame _ _, ?_, ?_, ?_, ?_, ?_⟩
    · have := h.ptr_lt
      simp only [Array.size_append]
      omega
    · intro v hv
      rcases Array.mem_append.1 hv with hv | hv
      · exact h.cells_mem v hv
      · rw [(Array.mem_replicate.1 hv).2]
        exact ⟨c.cellMin_nonpos, c.cellMax_nonneg hc.cellWidth_pos⟩
    · have := h.size_ge
      simp only [Array.size_append]
      omega
    · exact fun hn => absurd he hn
    · simp only [Array.size_append, Array.size_replicate]
      omega

theorem size_of_growTo {t t' : Tape} {i : Nat} (h : growTo i t = (.ok (), t'))
    (hi : t.cells.size ≤ i) : t'.cells.size = i + 1 := by
  unfold growTo at h
  split at h
  · cases h
  · cases h
    simp only [Array.size_append, Array.size_replicate]
    omega

theorem keeps_seek (hc : c.Valid) (target : Int) : Keeps (seek target) (Conforms c) := by
  intro t h
  have hp := h.ptr_lt
  unfold seek
  split
  · next ht => exact h.movePtr (by omega)
  · next ht =>
    split
    · exact h
    · have hm := Int.emod_nonneg target (b := t.cells.size) (by omega)
      have hl := Int.emod_lt_of_pos target (b := t.cells.size) (by omega)
      exact h.movePtr (by omega)
    · next he =>
      split
      · have hk := keeps_growTo hc (h.edge_eq ▸ he) target.toNat t h
        split
        · next t' hg =>
          rw [hg] at hk
          have hs : t'.cells.size = target.toNat + 1 := size_of_growTo hg (by omega)
          exact hk.movePtr (by dsimp only; omega)
        · next f t' hg =>
          rw [hg] at hk
          exact hk
      · exact h

theorem Configured.seek_eq_ok (h : t.Configured c) (he : c.edge = .error) {target : Int}
    {a : Unit} {t' : Tape} (hs : seek target t = (.ok a, t')) :
    (0 ≤ target ∧ target < t.cells.size) ∧ t' = { t with ptr := target.toNat } := by
  unfold seek at hs
  split at hs
  · next hin =>
    cases hs
    exact ⟨hin, rfl⟩
  · rw [h.edge_eq, he] at hs
    cases hs

theorem keeps_setAt (hc : c.Valid) (i : Nat) (v : Int) : Keeps (setAt i v) (Conforms c) := by
  intro t h
  unfold setAt
  split
  · exact h
  · next w hf =>
    have hw := h.mem_of_fit hc hf
    split
    · exact h.setCell i hw
    · split
      · next he =>
        have hk := keeps_growTo hc (h.edge_eq ▸ he) i t h
        split
        · next t' hg =>
          rw [hg] at hk
          exact hk.setCell i hw
        · next f t' hg =>
          rw [hg] at hk
          exact hk
      · exact h

/-! ### Policies -/

theorem configured_growTo (i : Nat) : Keeps (growTo i) (Configured c) := by
  intro t h
  unfold growTo
  split
  · exact h
  · exact h.frame _ _

/-- The policies stay as they are whatever the cells and the configuration are. -/
theorem stable_configured (c : MachineConfig) : Stable (Configured c) where
  keeps_set v t h := by
    unfold set
    split
    · exact h.frame _ _
    · exact h
  keeps_setAt i v t h := by
    have hg := configured_growTo i t h
    unfold setAt
    split
    · exact h
    · split
      · exact h.frame _ _
      · split
        · cases hr : growTo i t with
          | mk r t' =>
            rw [hr] at hg
            cases r with
            | ok _ => exact hg.frame _ _
            | error f => exact hg
        · exact h
  keeps_seek := keeps_seek_of_growTo (fun _ _ h => h.frame _ _) configured_growTo

end TapeDialects.Tape
