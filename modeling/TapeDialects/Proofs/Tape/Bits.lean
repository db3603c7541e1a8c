import TapeDialects.Tape.Bitwise

/-!
# Values of cells as bits

A cell of `w` bits holds the integers from `cellMin` to `cellMax`. Each of them stands for its
remainder modulo `2 ^ w`, a word of `w` bits (`MachineConfig.bits`), and each such word is the bits
of one value that fits (`MachineConfig.valueOf`). The words of 64 bits on which the bitwise effects
compute are these words, extended with the sign or with zeros, so the effects compute on the bits of
the cells, and what they compute fits again.
-/

namespace TapeDialects

namespace MachineConfig

variable {c : MachineConfig}

/-- A cell can hold the value. -/
def Fits (c : MachineConfig) (v : Int) : Prop := c.cellMin ≤ v ∧ v ≤ c.cellMax

instance (c : MachineConfig) (v : Int) : Decidable (c.Fits v) :=
  inferInstanceAs (Decidable (c.cellMin ≤ v ∧ v ≤ c.cellMax))

/-- The bits of a value: the value modulo the number of values of a cell. -/
def bits (c : MachineConfig) (v : Int) : BitVec c.cellWidth := BitVec.ofInt c.cellWidth v

/-- The value that a cell with these bits holds. -/
def valueOf (c : MachineConfig) (x : BitVec c.cellWidth) : Int :=
  if c.signedCell then x.toInt else x.toNat

/-- The bits of a cell as a word of 64 bits, which has the sign of the value that they stand for. -/
def extend (c : MachineConfig) (x : BitVec c.cellWidth) : BitVec 64 :=
  if c.signedCell then x.signExtend 64 else x.setWidth 64

/-- Of the values that a cell can hold, `v` is the one with the bits `x`. -/
structure Represents (c : MachineConfig) (v : Int) (x : BitVec c.cellWidth) : Prop where
  fits : c.Fits v
  bits_eq : c.bits v = x
  unique : ∀ v', c.Fits v' → c.bits v' = x → v' = v

/-! ### Values and bits -/

theorem toNat_bits (c : MachineConfig) (v : Int) : ((c.bits v).toNat : Int) = v % c.valueCount := by
  have hp := c.valueCount_pos
  rw [bits, BitVec.toNat_ofInt, ← Nat.one_shiftLeft, ← valueCount]
  exact Int.toNat_of_nonneg (Int.emod_nonneg v (by omega))

theorem toInt_bits (c : MachineConfig) (v : Int) : (c.bits v).toInt = v.bmod c.valueCount := by
  rw [bits, BitVec.toInt_ofInt, ← Nat.one_shiftLeft, ← valueCount]

theorem toNat_lt_valueCount (c : MachineConfig) (x : BitVec c.cellWidth) :
    x.toNat < c.valueCount := by
  rw [valueCount, Nat.one_shiftLeft]
  exact x.isLt

theorem bits_valueOf (c : MachineConfig) (x : BitVec c.cellWidth) : c.bits (c.valueOf x) = x := by
  unfold bits valueOf
  split
  · exact BitVec.ofInt_toInt
  · rw [BitVec.ofInt_natCast, BitVec.ofNat_toNat, BitVec.setWidth_eq]

theorem Valid.fits_valueOf (hc : c.Valid) (x : BitVec c.cellWidth) : c.Fits (c.valueOf x) := by
  have hd := c.two_dvd_valueCount hc.cellWidth_pos
  unfold Fits cellMin cellMax valueOf
  split
  · -- The bits of an integer are read with a sign as the nearest remainder to zero.
    have hx : x.toInt = x.toInt.bmod c.valueCount := by
      rw [← c.toInt_bits, bits, BitVec.ofInt_toInt]
    have hl : -((c.valueCount / 2 : Nat) : Int) ≤ x.toInt.bmod c.valueCount :=
      Int.le_bmod c.valueCount_pos
    have hg : x.toInt.bmod c.valueCount < (c.valueCount + 1) / 2 := Int.bmod_lt c.valueCount_pos
    omega
  · have hx := c.toNat_lt_valueCount x
    omega

theorem Valid.valueOf_bits (hc : c.Valid) {v : Int} (h : c.Fits v) : c.valueOf (c.bits v) = v := by
  have hd := c.two_dvd_valueCount hc.cellWidth_pos
  unfold Fits cellMin cellMax at h
  unfold valueOf
  split
  · next hs =>
    rw [if_pos hs, if_pos hs] at h
    rw [c.toInt_bits]
    exact Int.bmod_eq_of_le (by omega) (by omega)
  · next hs =>
    rw [if_neg hs, if_neg hs] at h
    rw [c.toNat_bits]
    exact Int.emod_eq_of_lt (by omega) (by omega)

theorem Valid.represents (hc : c.Valid) {v : Int} (h : c.Fits v) : c.Represents v (c.bits v) where
  fits := h
  bits_eq := rfl
  unique v' h' hb := by rw [← hc.valueOf_bits h', hb, hc.valueOf_bits h]

theorem Valid.represents_valueOf (hc : c.Valid) (x : BitVec c.cellWidth) :
    c.Represents (c.valueOf x) x := by
  have h := hc.represents (hc.fits_valueOf x)
  rwa [c.bits_valueOf] at h

/-- Values have the same bits if they are the same modulo the number of values of a cell. -/
theorem bits_eq_bits_iff (c : MachineConfig) (v w : Int) :
    c.bits v = c.bits w ↔ v % c.valueCount = w % c.valueCount := by
  rw [← BitVec.toNat_inj, ← c.toNat_bits v, ← c.toNat_bits w, Int.natCast_inj]

theorem bits_add (c : MachineConfig) (v w : Int) : c.bits (v + w) = c.bits v + c.bits w :=
  BitVec.ofInt_add v w

/-! ### Values as words -/

theorem word_valueOf (c : MachineConfig) (x : BitVec c.cellWidth) :
    Tape.word (c.valueOf x) = c.extend x := by
  unfold Tape.word valueOf extend
  split
  · rfl
  · rw [BitVec.ofInt_natCast, BitVec.ofNat_toNat]

/-- A word of 64 bits keeps the value of every cell of at most 32. -/
theorem Valid.toInt_extend (hc : c.Valid) (x : BitVec c.cellWidth) :
    (c.extend x).toInt = c.valueOf x := by
  have hw := hc.cellWidth_le
  unfold extend valueOf
  split
  · exact BitVec.toInt_signExtend_of_le (by omega)
  · have hx : (x.setWidth 64).toNat = x.toNat := BitVec.toNat_setWidth_of_le (by omega)
    have hlt : 2 ^ c.cellWidth ≤ 2 ^ 32 := Nat.pow_le_pow_right (by decide) hw
    have hx32 := x.isLt
    rw [BitVec.toInt_eq_toNat_of_lt (by omega), hx]

/-- An operation on the bits of words of any length commutes with their extension. -/
theorem extend_op (op : (w : Nat) → BitVec w → BitVec w → BitVec w)
    (hs : ∀ {w v : Nat} {x y : BitVec w},
      (op w x y).signExtend v = op v (x.signExtend v) (y.signExtend v))
    (hz : ∀ {w v : Nat} {x y : BitVec w},
      (op w x y).setWidth v = op v (x.setWidth v) (y.setWidth v))
    (x y : BitVec c.cellWidth) :
    c.extend (op c.cellWidth x y) = op 64 (c.extend x) (c.extend y) := by
  unfold extend
  split
  · exact hs
  · exact hz

/-! ### Effects on bits -/

/-- On values that fit, `g` is the operation `op` on their bits. -/
def Computes (c : MachineConfig) (g : Int → Int → Int)
    (op : BitVec c.cellWidth → BitVec c.cellWidth → BitVec c.cellWidth) : Prop :=
  ∀ a b, c.Fits a → c.Fits b → g a b = c.valueOf (op (c.bits a) (c.bits b))

theorem Computes.fits {g : Int → Int → Int}
    {op : BitVec c.cellWidth → BitVec c.cellWidth → BitVec c.cellWidth} (h : c.Computes g op)
    (hc : c.Valid) {a b : Int} (ha : c.Fits a) (hb : c.Fits b) : c.Fits (g a b) := by
  rw [h a b ha hb]
  exact hc.fits_valueOf _

theorem Valid.computes_op (hc : c.Valid) (op : (w : Nat) → BitVec w → BitVec w → BitVec w)
    (hs : ∀ {w v : Nat} {x y : BitVec w},
      (op w x y).signExtend v = op v (x.signExtend v) (y.signExtend v))
    (hz : ∀ {w v : Nat} {x y : BitVec w},
      (op w x y).setWidth v = op v (x.setWidth v) (y.setWidth v)) :
    c.Computes (fun a b => (op 64 (Tape.word a) (Tape.word b)).toInt) (op c.cellWidth) := by
  intro a b ha hb
  dsimp only
  rw [← hc.valueOf_bits ha, ← hc.valueOf_bits hb, c.word_valueOf, c.word_valueOf,
    ← extend_op op hs hz, hc.toInt_extend, c.bits_valueOf, c.bits_valueOf]

theorem Valid.computes_bitOr (hc : c.Valid) : c.Computes Tape.bitOr (· ||| ·) :=
  hc.computes_op (fun _ => (· ||| ·)) BitVec.signExtend_or BitVec.setWidth_or

theorem Valid.computes_bitAnd (hc : c.Valid) : c.Computes Tape.bitAnd (· &&& ·) :=
  hc.computes_op (fun _ => (· &&& ·)) BitVec.signExtend_and BitVec.setWidth_and

theorem Valid.computes_bitXor (hc : c.Valid) : c.Computes Tape.bitXor (· ^^^ ·) :=
  hc.computes_op (fun _ => (· ^^^ ·)) BitVec.signExtend_xor BitVec.setWidth_xor

theorem ofInt_bitNot (w : Nat) (v : Int) :
    BitVec.ofInt w (Tape.bitNot v) = ~~~BitVec.ofInt w v := by
  rw [Tape.bitNot, BitVec.not_eq_neg_add, Int.sub_eq_add_neg, BitVec.ofInt_add,
    BitVec.ofInt_neg, BitVec.ofInt_neg, BitVec.sub_eq_add_neg]
  rfl

/-- The complement of a value with a sign fits without being cut. -/
theorem Valid.fits_bitNot (hc : c.Valid) (hs : c.signedCell = true) {v : Int} (h : c.Fits v) :
    c.Fits (Tape.bitNot v) := by
  have hd := c.two_dvd_valueCount hc.cellWidth_pos
  unfold Fits cellMin cellMax at h ⊢
  rw [if_pos hs, if_pos hs] at h ⊢
  unfold Tape.bitNot
  omega

/-- Where cells have no sign, the mask is the value of a cell whose bits are all set. -/
theorem Valid.valueOf_allOnes (hc : c.Valid) (hs : c.signedCell = false) :
    c.valueOf (BitVec.allOnes c.cellWidth) = c.cellMax - c.cellMin := by
  have hm := c.cellMax_sub_cellMin hc.cellWidth_pos
  have hp := c.valueCount_pos
  rw [valueOf, hs, if_neg Bool.false_ne_true, BitVec.toNat_allOnes, ← Nat.one_shiftLeft,
    ← valueCount]
  omega

/-- The extension with zeros leaves the complement to be cut to the bits of the cell. -/
theorem extend_not (hs : c.signedCell = false) (x : BitVec c.cellWidth) :
    c.extend (~~~x) = ~~~c.extend x &&& c.extend (BitVec.allOnes c.cellWidth) := by
  simp only [extend, hs, Bool.false_eq_true, if_false]
  ext i hi
  simp only [BitVec.getElem_setWidth, BitVec.getElem_and, BitVec.getElem_not, BitVec.getLsbD_not,
    BitVec.getLsbD_allOnes]
  grind

/-- The complement, cut to the bits of the cell unless the cell has a sign. -/
theorem Valid.complement_eq (hc : c.Valid) {v : Int} (h : c.Fits v) :
    (if c.signedCell then Tape.bitNot v
      else Tape.bitAnd (Tape.bitNot v) (c.cellMax - c.cellMin)) = c.valueOf (~~~c.bits v) := by
  split
  · next hs =>
    have hn : c.bits (Tape.bitNot v) = ~~~c.bits v := ofInt_bitNot c.cellWidth v
    rw [← hn, hc.valueOf_bits (hc.fits_bitNot hs h)]
  · next hs =>
    have hs : c.signedCell = false := by simpa using hs
    have hn : Tape.word (Tape.bitNot v) = ~~~Tape.word v := ofInt_bitNot 64 v
    rw [Tape.bitAnd, hn, ← hc.valueOf_allOnes hs, c.word_valueOf, ← hc.toInt_extend, extend_not hs,
      ← c.word_valueOf (c.bits v), hc.valueOf_bits h]

theorem Valid.fits_half (hc : c.Valid) {v : Int} (h : c.Fits v) : c.Fits (v / 2) := by
  have := c.cellMin_nonpos
  have := c.cellMax_nonneg hc.cellWidth_pos
  unfold Fits at h ⊢
  omega

end MachineConfig

end TapeDialects
