import Mathlib.Data.List.Forall2
import TapeDialects.Machine.Effect
import TapeDialects.Proofs.Tape.Moves

/-!
# Written cells

What the writing of cells makes of a session where the sink has no bound: the values are behind what
was written before, and the pointer has moved on. Which bytes a value is written as is said by
`Stream.Spells`, and `Session.written_printed` says it of what the sink then holds.
-/

namespace TapeDialects

open Act

namespace Stream

/-- The bytes that a value is written as: a character in UTF-8 where characters are written and the
value is the code point of one, and otherwise a byte, the remainder of the value by 256. -/
inductive Spells : OutputMode → Int → List UInt8 → Prop where
  | byte (v : Int) (b : UInt8) (hb : (b.toNat : Int) = v % 256) : Spells .byte v [b]
  | char (c : Char) : Spells .char c.toNat (String.utf8EncodeChar c)
  | other (v : Int) (b : UInt8) (hv : ∀ c : Char, v ≠ c.toNat) (hb : (b.toNat : Int) = v % 256) :
    Spells .char v [b]

variable {mode : OutputMode} {v : Int} {bs : List UInt8}

theorem eq_lowByte {b : UInt8} (hb : (b.toNat : Int) = v % 256) : b = lowByte v := by
  have hlow := toNat_lowByte v
  exact UInt8.toNat_inj.1 (by omega)

/-- A value is spelled in one way, the one in which it is written. -/
theorem spells_iff : Spells mode v bs ↔ bs = valueBytes v mode := by
  constructor
  · rintro (⟨_, b, hb⟩ | c | ⟨_, b, hv, hb⟩)
    · rw [eq_lowByte hb, valueBytes_byte]
    · exact (valueBytes_char c).symm
    · rw [eq_lowByte hb, valueBytes_other hv]
  · rintro rfl
    cases mode with
    | byte => exact .byte v _ (toNat_lowByte v)
    | char =>
      by_cases hc : ∃ c : Char, v = c.toNat
      · obtain ⟨c, rfl⟩ := hc
        rw [valueBytes_char]
        exact .char c
      · have hv : ∀ c : Char, v ≠ c.toNat := fun c h => hc ⟨c, h⟩
        rw [valueBytes_other hv]
        exact .other v _ hv (toNat_lowByte v)

theorem forall₂_spells_iff {vs : List Int} {bss : List (List UInt8)} :
    List.Forall₂ (Spells mode) vs bss ↔ bss = vs.map (valueBytes · mode) := by
  have hspells : Spells mode = fun v bs => valueBytes v mode = bs := by
    funext v bs
    exact propext (spells_iff.trans eq_comm)
  rw [hspells, ← List.forall₂_map_left_iff, List.forall₂_eq_eq_eq, eq_comm]

end Stream

namespace Session

/-- The session after the values have been written, with the pointer on the cell at index `i`. -/
def printed (s : Session) (mode : OutputMode) (vs : List Int) (i : Nat) : Session :=
  { machine := { s.machine with tape := { s.machine.tape with ptr := i } }
    stream :=
      { s.stream with
        sink :=
          { s.stream.sink with
            written :=
              s.stream.sink.written ++ (vs.flatMap (Stream.valueBytes · mode)).toArray } } }

variable {s : Session} {mode : OutputMode} {vs ws : List Int} {i j : Nat} {v : Int}

theorem cell_of_get? (hv : s.machine.tape.get? s.machine.tape.ptr = some v) :
    s.cell = v :=
  Tape.get_of_get? hv

@[simp]
theorem ptr_printed : (s.printed mode vs i).machine.tape.ptr = i := rfl

@[simp]
theorem cells_printed : (s.printed mode vs i).machine.tape.cells = s.machine.tape.cells := rfl

@[simp]
theorem capacity_printed :
    (s.printed mode vs i).stream.sink.capacity = s.stream.sink.capacity := rfl

theorem printed_printed : (s.printed mode vs i).printed mode ws j = s.printed mode (vs ++ ws) j := by
  simp [printed]

theorem printed_nil (s : Session) (mode : OutputMode) :
    s.printed mode [] s.machine.tape.ptr = s := by
  simp [printed]

/-- Each of the values is spelled out behind what the sink holds. -/
theorem written_printed (s : Session) (mode : OutputMode) (vs : List Int) (i : Nat) :
    ∃ bss, List.Forall₂ (Stream.Spells mode) vs bss ∧
      (s.printed mode vs i).stream.sink.written =
        s.stream.sink.written ++ bss.flatten.toArray := by
  refine ⟨_, Stream.forall₂_spells_iff.2 rfl, ?_⟩
  rw [← List.flatMap_def]
  rfl

theorem put_apply (mode : OutputMode) (hk : s.stream.sink.capacity = none) :
    put mode s = (.ok (), s.printed mode [s.cell] s.machine.tape.ptr) := by
  simp [put, onStream_apply, Stream.writeValue, Stream.writeBytes, Stream.onSink,
    Sink.write_of_unbounded _ _ hk, printed]

theorem advance_printed (hi : i + 1 < s.machine.tape.cells.size) :
    advance (s.printed mode vs i) = (.ok (), s.printed mode vs (i + 1)) := by
  rw [advance, onMachine_apply, onTape_apply, Tape.shift_next hi]
  rfl

theorem putAdvance_printed (hk : s.stream.sink.capacity = none)
    (hv : s.machine.tape.get? i = some v) (hi : i + 1 < s.machine.tape.cells.size) :
    putAdvance mode (s.printed mode vs i) = (.ok (), s.printed mode (vs ++ [v]) (i + 1)) := by
  have hcell : (s.printed mode vs i).cell = v := cell_of_get? hv
  have hput := put_apply (s := s.printed mode vs i) mode hk
  rw [hcell, printed_printed, ptr_printed] at hput
  rw [putAdvance, bind_apply, hput]
  exact advance_printed hi

end Session

end TapeDialects
