import TapeDialects.Error

/-!
# Machine configuration

The parameters of a machine: how long its tape is and what lies beyond the ends,
how wide a cell is and what happens to values that do not fit, how cells are
written out, and how many steps a run may take.

`MachineConfig.Valid` holds of the configurations that a machine can run with,
and `MachineConfig.flaw?` names what is wrong with any other.
-/

namespace TapeDialects

inductive EdgePolicy where
  | error
  | wrap
  | grow
  deriving DecidableEq, Repr, Inhabited

/-- How the value of a cell is written: as a character, or as its low byte. -/
inductive OutputMode where
  | char
  | byte
  deriving DecidableEq, Repr, Inhabited

structure MachineConfig where
  tapeSize : Nat := 30000
  cellWidth : Nat := 8
  signedCell : Bool := false
  /-- Whether values that do not fit are reduced; otherwise they are faults. -/
  wrapCell : Bool := false
  edge : EdgePolicy := .error
  output : OutputMode := .char
  stepLimit : Option Nat := none
  deriving DecidableEq, Repr, Inhabited

namespace MachineConfig

/-- A machine can run with the configuration. -/
structure Valid (c : MachineConfig) : Prop where
  tapeSize_pos : 0 < c.tapeSize
  cellWidth_pos : 0 < c.cellWidth
  cellWidth_le : c.cellWidth ≤ 32

/-- What keeps a machine from running with the configuration; the tape is looked at first. -/
def flaw? (c : MachineConfig) : Option ConfigFlaw :=
  if c.tapeSize = 0 then some .emptyTape
  else if c.cellWidth = 0 ∨ 32 < c.cellWidth then some (.cellWidth c.cellWidth)
  else none

theorem flaw?_eq_none_iff (c : MachineConfig) : c.flaw? = none ↔ c.Valid := by
  unfold flaw?
  constructor
  · intro h
    split at h
    · contradiction
    · split at h
      · contradiction
      · exact ⟨by omega, by omega, by omega⟩
  · intro ⟨ht, hp, hw⟩
    rw [if_neg (by omega), if_neg (by omega)]

def valueCount (c : MachineConfig) : Nat := 1 <<< c.cellWidth

def cellMin (c : MachineConfig) : Int := if c.signedCell then -(c.valueCount / 2 : Nat) else 0

def cellMax (c : MachineConfig) : Int :=
  (if c.signedCell then c.valueCount / 2 else c.valueCount : Nat) - 1

theorem default_valid : ({} : MachineConfig).Valid := ⟨by decide, by decide, by decide⟩

theorem valueCount_pos (c : MachineConfig) : 0 < c.valueCount := by
  rw [valueCount, Nat.shiftLeft_eq, Nat.one_mul]
  exact Nat.two_pow_pos _

theorem two_dvd_valueCount (c : MachineConfig) (h : 0 < c.cellWidth) : 2 ∣ c.valueCount := by
  obtain ⟨w, hw⟩ : ∃ w, c.cellWidth = w + 1 := ⟨c.cellWidth - 1, by omega⟩
  rw [valueCount, hw, Nat.shiftLeft_succ]
  exact ⟨_, rfl⟩

/-- The values of a cell are as many as there are integers from the least to the greatest. -/
theorem cellMax_sub_cellMin (c : MachineConfig) (h : 0 < c.cellWidth) :
    c.cellMax - c.cellMin + 1 = c.valueCount := by
  have := c.two_dvd_valueCount h
  unfold cellMax cellMin
  split <;> omega

theorem cellMin_nonpos (c : MachineConfig) : c.cellMin ≤ 0 := by
  unfold cellMin
  split <;> omega

theorem cellMax_nonneg (c : MachineConfig) (h : 0 < c.cellWidth) : 0 ≤ c.cellMax := by
  have hp := c.valueCount_pos
  have hd := c.two_dvd_valueCount h
  unfold cellMax
  split <;> omega

end MachineConfig

end TapeDialects
