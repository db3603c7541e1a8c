import TapeDialects.Dialect.Handler
import TapeDialects.Proofs.Act.Raises
import TapeDialects.Proofs.Tape.Bits
import TapeDialects.Proofs.Tape.Conforms

/-!
# Bitwise operations

What the handlers of the bitwise opcodes store, on every tape that conforms to its configuration:
the value whose bits are those of the operation. Such a value fits, so that the only fault is the
one of the pointer that cannot move. The shift to the left is the exception: twice a value need not
fit, and the policy of the cells decides what becomes of it.
-/

namespace TapeDialects

namespace Tape

variable {c : MachineConfig} {t : Tape}

/-- The tape with another value in the current cell. -/
def withCell (t : Tape) (v : Int) : Tape := { t with cells := t.cells.setIfInBounds t.ptr v }

theorem withCell_withCell (t : Tape) (v w : Int) : (t.withCell v).withCell w = t.withCell w := by
  simp [withCell]

/-- A value that is reduced keeps its bits. -/
theorem Configured.bits_of_fit (h : t.Configured c) (hc : c.Valid) {v w : Int}
    (hf : t.fit v = .ok w) : c.bits w = c.bits v := by
  have hs := h.span_eq hc
  unfold fit at hf
  split at hf
  · cases hf
    rfl
  · split at hf
    · cases hf
      rw [c.bits_eq_bits_iff, hs, Int.emod_add_emod, Int.sub_add_cancel]
    · cases hf

namespace Conforms

variable (h : t.Conforms c)

include h

theorem get_withCell (v : Int) : (t.withCell v).get = v := by
  simp [get, withCell, h.ptr_lt]

theorem withCell_get : t.withCell t.get = t := by
  have hp := h.ptr_lt
  have hs : t.cells.setIfInBounds t.ptr t.get = t.cells := by
    simp [Array.setIfInBounds, get, hp]
  rw [withCell, hs]

theorem withCell {v : Int} (hv : c.Fits v) : (t.withCell v).Conforms c := h.setCell t.ptr hv

theorem set_of_fits {v : Int} (hv : c.Fits v) : set v t = (.ok (), t.withCell v) := by
  refine set_apply_ok (fit_of_mem ?_)
  rwa [h.least_eq, h.greatest_eq]

theorem set_of_wrapCell (hc : c.Valid) (hw : c.wrapCell = true) (v : Int) :
    ∃ w, c.Represents w (c.bits v) ∧ set v t = (.ok (), t.withCell w) := by
  obtain ⟨w, hf⟩ := h.exists_fit hw v
  have hr := hc.represents (h.mem_of_fit hc hf)
  rw [h.bits_of_fit hc hf] at hr
  exact ⟨w, hr, set_apply_ok hf⟩

theorem set_of_strict (hw : c.wrapCell = false) (v : Int) :
    set v t =
      if c.Fits v then (.ok (), t.withCell v)
      else (.error (.cellOverflow v c.cellMin c.cellMax), t) := by
  split
  · next hv => exact h.set_of_fits hv
  · next hv =>
    refine set_apply_error ?_
    unfold MachineConfig.Fits at hv
    rw [fit, h.least_eq, h.greatest_eq, h.wrapCell_eq, hw, if_neg hv, if_neg Bool.false_ne_true]

/-- An operation on the bits of two cells stops with the fault of the move only. -/
theorem combine_apply (hc : c.Valid) {g : Int → Int → Int}
    {op : BitVec c.cellWidth → BitVec c.cellWidth → BitVec c.cellWidth} (hg : c.Computes g op) :
    combine g t = match shift 1 t with
      | (.ok (), t') => (.ok (), t'.withCell (g t.get t'.get))
      | (.error f, t') => (.error f, t') := by
  have hk := keeps_seek hc (t.ptr + 1) t h
  unfold combine shift
  dsimp only
  cases hs : seek (t.ptr + 1) t with
  | mk r t' =>
    rw [hs] at hk
    cases r with
    | error f => rfl
    | ok u => exact hk.set_of_fits (hg.fits hc h.get_mem hk.get_mem)

theorem complement_apply (hc : c.Valid) :
    complement c.signedCell t = (.ok (), t.withCell (c.valueOf (~~~c.bits t.get))) := by
  rw [complement, mask, h.least_eq, h.greatest_eq, hc.complement_eq h.get_mem]
  exact h.set_of_fits (hc.fits_valueOf _)

/-- The complement of the complement is the cell as it was. -/
theorem complement_complement (hc : c.Valid) :
    complement c.signedCell (t.withCell (c.valueOf (~~~c.bits t.get))) = (.ok (), t) := by
  have hk := h.withCell (hc.fits_valueOf (~~~c.bits t.get))
  rw [hk.complement_apply hc, h.get_withCell, c.bits_valueOf, BitVec.not_not,
    hc.valueOf_bits h.get_mem, withCell_withCell, h.withCell_get]

theorem shiftRight_apply (hc : c.Valid) : shiftRight t = (.ok (), t.withCell (t.get / 2)) :=
  h.set_of_fits (hc.fits_half h.get_mem)

end Conforms

end Tape

namespace Session

/-- The session with another value in the current cell. -/
def withCell (s : Session) (v : Int) : Session :=
  { s with machine := { s.machine with tape := s.machine.tape.withCell v } }

end Session

namespace Handler

theorem ofTape_eq {x : Act Tape Unit} {s : Session} {r : Except Fault Unit} {t : Tape}
    (h : x s.machine.tape = (r, t)) :
    ofTape x s = (r, { s with machine := { s.machine with tape := t } }) :=
  onMachine_eq_iff.2 ⟨_, onTape_eq_iff.2 ⟨t, h, rfl⟩, rfl⟩

/-- The handler moves the pointer on and stores the value with the bits that `op` makes of the cell
left and the cell reached. If the pointer cannot move, the handler fails as the move does. -/
def Combines (h : Handler) (d : Setting)
    (op : BitVec d.config.cellWidth → BitVec d.config.cellWidth → BitVec d.config.cellWidth)
    (s : Session) : Prop :=
  match Session.advance s with
  | (.ok (), s') =>
    ∃ v, d.config.Represents v (op (d.config.bits s.cell) (d.config.bits s'.cell)) ∧
      h.run d s = (.ok (), s'.withCell v)
  | (.error f, s') =>
    (∃ target cells, f = .pointerOutOfRange target cells) ∧ h.run d s = (.error f, s')

/-- The handler does not report that a value is out of range. -/
def NoOverflow (h : Handler) (d : Setting) (s : Session) : Prop :=
  ∀ v least greatest, (h.run d s).1 ≠ .error (.cellOverflow v least greatest)

variable {d : Setting} {s : Session}

theorem Combines.noOverflow {h : Handler}
    {op : BitVec d.config.cellWidth → BitVec d.config.cellWidth → BitVec d.config.cellWidth}
    (hh : h.Combines d op s) : h.NoOverflow d s := by
  intro v least greatest he
  unfold Combines at hh
  split at hh
  · obtain ⟨_, _, hr⟩ := hh
    rw [hr] at he
    cases he
  · obtain ⟨⟨_, _, rfl⟩, hr⟩ := hh
    rw [hr] at he
    cases he

theorem noOverflow_of_ok {h : Handler} {s' : Session} (hr : h.run d s = (.ok (), s')) :
    h.NoOverflow d s := by
  intro v least greatest he
  rw [hr] at he
  cases he

theorem combines_of_computes {h : Handler} {g : Int → Int → Int}
    {op : BitVec d.config.cellWidth → BitVec d.config.cellWidth → BitVec d.config.cellWidth}
    (hc : d.config.Valid) (hs : s.machine.tape.Conforms d.config)
    (hrun : h.run d = ofTape (Tape.combine g)) (hg : d.config.Computes g op) :
    h.Combines d op s := by
  have ht := hs.combine_apply hc hg
  have hr := Tape.raises_shift (P := fun f => ∃ target cells, f = .pointerOutOfRange target cells)
    (fun target cells => ⟨target, cells, rfl⟩) 1 s.machine.tape
  unfold Combines
  cases hm : Tape.shift 1 s.machine.tape with
  | mk r t =>
    have hadv : Session.advance s = _ := ofTape_eq hm
    have hk : t.Conforms d.config := (Tape.keeps_seek hc _).of_eq hs hm
    rw [hm] at ht hr
    rw [hadv, hrun]
    cases r with
    | error f => exact ⟨hr f rfl, ofTape_eq ht⟩
    | ok u =>
      refine ⟨_, ?_, ofTape_eq ht⟩
      rw [hg _ _ hs.get_mem hk.get_mem]
      exact hc.represents_valueOf _

/-- The bitwise operations are exact on the bits of the cells, and none of them but the shift to the
left makes a value that does not fit. -/
theorem run_bitwise (hc : d.config.Valid) (hs : s.machine.tape.Conforms d.config) :
    (or.Combines d (· ||| ·) s ∧ and.Combines d (· &&& ·) s ∧ xor.Combines d (· ^^^ ·) s) ∧
    (∃ v, d.config.Represents v (~~~d.config.bits s.cell) ∧
      not.run d s = (.ok (), s.withCell v) ∧ not.run d (s.withCell v) = (.ok (), s)) ∧
    (d.config.Fits (s.cell / 2) ∧ shr.run d s = (.ok (), s.withCell (s.cell / 2))) ∧
    (∀ h ∈ [or, and, xor, not, shr], h.NoOverflow d s) ∧
    (d.config.wrapCell = true →
      ∃ v, d.config.Represents v (d.config.bits (2 * s.cell)) ∧
        shl.run d s = (.ok (), s.withCell v)) ∧
    (d.config.wrapCell = false →
      shl.run d s =
        if d.config.Fits (2 * s.cell) then (.ok (), s.withCell (2 * s.cell))
        else (.error (.cellOverflow (2 * s.cell) d.config.cellMin d.config.cellMax), s)) := by
  have hor : or.Combines d (· ||| ·) s :=
    combines_of_computes hc hs rfl hc.computes_bitOr
  have hand : and.Combines d (· &&& ·) s :=
    combines_of_computes hc hs rfl hc.computes_bitAnd
  have hxor : xor.Combines d (· ^^^ ·) s :=
    combines_of_computes hc hs rfl hc.computes_bitXor
  have hnot : not.run d s = (.ok (), s.withCell (d.config.valueOf (~~~d.config.bits s.cell))) :=
    ofTape_eq (hs.complement_apply hc)
  have hshr : shr.run d s = (.ok (), s.withCell (s.cell / 2)) := ofTape_eq (hs.shiftRight_apply hc)
  refine ⟨⟨hor, hand, hxor⟩, ⟨_, hc.represents_valueOf _, hnot, ?_⟩,
    ⟨hc.fits_half hs.get_mem, hshr⟩, ?_, ?_, ?_⟩
  · exact ofTape_eq (hs.complement_complement hc)
  · intro h hh
    simp only [List.mem_cons, List.not_mem_nil, or_false] at hh
    rcases hh with rfl | rfl | rfl | rfl | rfl
    · exact hor.noOverflow
    · exact hand.noOverflow
    · exact hxor.noOverflow
    · exact noOverflow_of_ok hnot
    · exact noOverflow_of_ok hshr
  · intro hw
    obtain ⟨v, hv, ht⟩ := hs.set_of_wrapCell hc hw (2 * s.cell)
    exact ⟨v, hv, ofTape_eq ht⟩
  · intro hw
    have ht := hs.set_of_strict hw (2 * s.cell)
    split
    · next hv => exact ofTape_eq (ht.trans (if_pos hv))
    · next hv => exact ofTape_eq (ht.trans (if_neg hv))

/-- Four bits with a sign. -/
def nibbles : Setting where
  table := default
  config := { tapeSize := 2, cellWidth := 4, signedCell := true }

/-- The pointer on the least value, with `5` behind it. -/
def leastNibble : Session :=
  ⟨⟨{ Tape.ofConfig nibbles.config with cells := #[-8, 5] }, #[], 0, 0⟩, {}⟩

theorem conforms_leastNibble : leastNibble.machine.tape.Conforms nibbles.config where
  toConfigured := (Tape.configured_ofConfig nibbles.config).frame _ _
  ptr_lt := by decide
  cells_mem := by decide
  size_ge := by decide
  size_fixed _ := rfl
  size_le := by decide

/-- The bits `1000` and `0101` make `1101`, and the least value has no double. -/
theorem run_bitwise_leastNibble :
    nibbles.config.Valid ∧ leastNibble.machine.tape.Conforms nibbles.config ∧
    or.Combines nibbles (· ||| ·) leastNibble ∧ (or.run nibbles leastNibble).2.cell = -3 ∧
    (∃ v, nibbles.config.Represents v (~~~nibbles.config.bits (-8)) ∧
      not.run nibbles leastNibble = (.ok (), leastNibble.withCell v)) ∧
    (not.run nibbles leastNibble).2.cell = 7 ∧
    shr.run nibbles leastNibble = (.ok (), leastNibble.withCell (-4)) ∧
    shl.run nibbles leastNibble = (.error (.cellOverflow (-16) (-8) 7), leastNibble) := by
  have hc : nibbles.config.Valid := ⟨by decide, by decide, by decide⟩
  obtain ⟨⟨hor, _, _⟩, ⟨v, hv, hnot, _⟩, ⟨_, hshr⟩, _, _, hshl⟩ :=
    run_bitwise hc conforms_leastNibble
  exact ⟨hc, conforms_leastNibble, hor, by decide, ⟨v, hv, hnot⟩, by decide, hshr, hshl rfl⟩

end Handler

end TapeDialects
