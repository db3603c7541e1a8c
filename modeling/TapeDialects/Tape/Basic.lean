import TapeDialects.Act
import TapeDialects.MachineConfig

/-!
# Tapes

The data memory of the machine: a row of cells and the data pointer. A value
that does not fit a cell is reduced into its range or refused, and a pointer that
leaves the row is refused, wrapped around or followed by new cells, as the
configuration says.

An action that refuses leaves the tape as it was.
-/

namespace TapeDialects

structure Tape where
  cells : Array Int
  ptr : Nat
  least : Int
  greatest : Int
  wrapCell : Bool
  edge : EdgePolicy
  deriving DecidableEq, Repr, Inhabited

namespace Tape

/-- The greatest number of cells to which a growing tape extends itself. -/
def growLimit : Nat := 1 <<< 24

def ofConfig (c : MachineConfig) : Tape where
  cells := Array.replicate c.tapeSize 0
  ptr := 0
  least := c.cellMin
  greatest := c.cellMax
  wrapCell := c.wrapCell
  edge := c.edge

def reset (t : Tape) (size : Nat) : Tape :=
  { t with cells := Array.replicate size 0, ptr := 0 }

def size (t : Tape) : Nat := t.cells.size

def get (t : Tape) : Int := t.cells.getD t.ptr 0

def get? (t : Tape) (i : Nat) : Option Int := t.cells[i]?

/-- The cells before index `i` that are not zero, each with its index, in front of `found`. -/
def nonzeroBefore (cells : Array Int) : (i : Nat) → (found : List (Nat × Int)) → List (Nat × Int)
  | 0, found => found
  | i + 1, found =>
    nonzeroBefore cells i (if cells.getD i 0 = 0 then found else (i, cells.getD i 0) :: found)

def nonzeroCells (t : Tape) : List (Nat × Int) := nonzeroBefore t.cells t.cells.size []

theorem mem_nonzeroBefore_iff (cells : Array Int) (i : Nat) (found : List (Nat × Int))
    (c : Nat × Int) :
    c ∈ nonzeroBefore cells i found ↔
      c ∈ found ∨ c.1 < i ∧ cells.getD c.1 0 = c.2 ∧ c.2 ≠ 0 := by
  obtain ⟨j, v⟩ := c
  induction i generalizing found with
  | zero => simp [nonzeroBefore]
  | succ i ih =>
    rw [nonzeroBefore, ih]
    by_cases hj : j = i
    · subst hj
      split <;> grind
    · split <;> grind

theorem mem_nonzeroCells_iff (t : Tape) (i : Nat) (v : Int) :
    (i, v) ∈ t.nonzeroCells ↔ t.get? i = some v ∧ v ≠ 0 := by
  rw [nonzeroCells, mem_nonzeroBefore_iff, get?]
  by_cases hi : i < t.cells.size <;> simp [hi]

/-- The distance between the greatest and the least value, whose bits are those of a cell. -/
def mask (t : Tape) : Int := t.greatest - t.least

/-- The value that a cell holds after `v` is written to it. -/
def fit (t : Tape) (v : Int) : Except Fault Int :=
  if t.least ≤ v ∧ v ≤ t.greatest then .ok v
  else if t.wrapCell then .ok ((v - t.least) % (t.greatest - t.least + 1) + t.least)
  else .error (.cellOverflow v t.least t.greatest)

/-- A word of 64 bits with a sign can hold the integer. `fit`, `add` and `shift` compute with
integers of any size, and what they compute stands for the sums of words as far as it is words. -/
def IsWord (v : Int) : Prop := Int64.minValue.toInt ≤ v ∧ v ≤ Int64.maxValue.toInt

instance (v : Int) : Decidable (IsWord v) :=
  inferInstanceAs (Decidable (Int64.minValue.toInt ≤ v ∧ v ≤ Int64.maxValue.toInt))

/-- An absolute index as faults report it: a word of 64 bits with a sign. -/
def signedIndex (i : Nat) : Int := Int.bmod i (1 <<< 64)

/-! ### Actions -/

def set (v : Int) : Act Tape Unit := fun t =>
  match t.fit v with
  | .ok w => (.ok (), { t with cells := t.cells.setIfInBounds t.ptr w })
  | .error f => (.error f, t)

def add (delta : Int) : Act Tape Unit := fun t => set (t.get + delta) t

def growTo (i : Nat) : Act Tape Unit := fun t =>
  if max growLimit t.cells.size ≤ i then
    (.error (.pointerOutOfRange (signedIndex i) t.cells.size), t)
  else
    (.ok (), { t with cells := t.cells ++ Array.replicate (i + 1 - t.cells.size) 0 })

/-- Writes a value to the cell at an index, which may lie beyond the end of a growing tape. A value
that does not fit is refused before the index is looked at. -/
def setAt (i : Nat) (v : Int) : Act Tape Unit := fun t =>
  match t.fit v with
  | .error f => (.error f, t)
  | .ok w =>
    if i < t.cells.size then (.ok (), { t with cells := t.cells.setIfInBounds i w })
    else if t.edge = .grow then
      match growTo i t with
      | (.ok (), t) => (.ok (), { t with cells := t.cells.setIfInBounds i w })
      | (.error f, t) => (.error f, t)
    else (.error (.pointerOutOfRange (signedIndex i) t.cells.size), t)

/-- Moves the pointer to an index, which may lie outside the tape. A growing tape grows at its right
end only. -/
def seek (target : Int) : Act Tape Unit := fun t =>
  if 0 ≤ target ∧ target < t.cells.size then (.ok (), { t with ptr := target.toNat })
  else
    match t.edge with
    | .error => (.error (.pointerOutOfRange target t.cells.size), t)
    | .wrap => (.ok (), { t with ptr := (target % t.cells.size).toNat })
    | .grow =>
      if 0 ≤ target then
        match growTo target.toNat t with
        | (.ok (), t) => (.ok (), { t with ptr := target.toNat })
        | (.error f, t) => (.error f, t)
      else (.error (.pointerOutOfRange target t.cells.size), t)

def shift (delta : Int) : Act Tape Unit := fun t => seek (t.ptr + delta) t

/-! ### Cells under the actions -/

theorem set_apply_ok {t : Tape} {v w : Int} (h : t.fit v = .ok w) :
    set v t = (.ok (), { t with cells := t.cells.setIfInBounds t.ptr w }) := by
  simp [set, h]

theorem set_apply_error {t : Tape} {v : Int} {f : Fault} (h : t.fit v = .error f) :
    set v t = (.error f, t) := by
  simp [set, h]

theorem fit_of_mem {t : Tape} {v : Int} (h : t.least ≤ v ∧ v ≤ t.greatest) : t.fit v = .ok v := by
  simp [fit, h]

theorem mem_of_fit {t : Tape} {v w : Int} (hr : t.least ≤ t.greatest) (h : t.fit v = .ok w) :
    t.least ≤ w ∧ w ≤ t.greatest := by
  unfold fit at h
  split at h
  · cases h
    assumption
  · split at h
    · simp only [Except.ok.injEq] at h
      have hn := Int.emod_nonneg (v - t.least) (b := t.greatest - t.least + 1) (by omega)
      have hl := Int.emod_lt_of_pos (v - t.least) (b := t.greatest - t.least + 1) (by omega)
      omega
    · contradiction

/-! ### Actions that refuse -/

variable {t t' : Tape} {v target : Int} {i : Nat} {f : Fault}

theorem fit_eq_error (h : t.fit v = .error f) : f = .cellOverflow v t.least t.greatest := by
  unfold fit at h
  split at h
  · cases h
  · split at h
    · cases h
    · exact (Except.error.inj h).symm

theorem set_eq_error (h : set v t = (.error f, t')) :
    t' = t ∧ f = .cellOverflow v t.least t.greatest := by
  unfold set at h
  split at h
  · cases h
  · next hf =>
    cases h
    exact ⟨rfl, fit_eq_error hf⟩

theorem growTo_eq_error (h : growTo i t = (.error f, t')) :
    t' = t ∧ f = .pointerOutOfRange (signedIndex i) t.cells.size := by
  unfold growTo at h
  split at h
  · cases h
    exact ⟨rfl, rfl⟩
  · cases h

theorem seek_eq_error (h : seek target t = (.error f, t')) :
    t' = t ∧ ∃ index, f = .pointerOutOfRange index t.cells.size := by
  unfold seek at h
  split at h
  · cases h
  · split at h
    · cases h
      exact ⟨rfl, _, rfl⟩
    · cases h
    · split at h
      · split at h
        · cases h
        · next hg =>
          cases h
          obtain ⟨rfl, rfl⟩ := growTo_eq_error hg
          exact ⟨rfl, _, rfl⟩
      · cases h
        exact ⟨rfl, _, rfl⟩

end Tape

end TapeDialects
