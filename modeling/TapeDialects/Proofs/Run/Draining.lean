import Mathlib.Data.Nat.Find
import TapeDialects.Proofs.Run.Printed
import TapeDialects.Proofs.Run.Sound

/-!
# Draining a tape

What the hook writes that runs behind a program: the cells from the pointer on, up to the first
zero. A tape that wraps around goes on from its first cell, and the loop ends by itself when every
cell has been written, since it counts the cells of the tape before it starts. Where the tape
refuses or grows, the loop comes to the end of the tape with a part of that number left.

The loop writes a stretch without zeros cell by cell (`Session.drainCells_segment`). Only the step
from the last cell depends on the edge, so the cases of `Handler.run_drain` differ in that step.
-/

namespace TapeDialects

open Act

namespace Tape

/-- The values of the cells from index `i` on and before index `j`. -/
def segment (t : Tape) (i j : Nat) : List Int := (t.cells.extract i j).toList

def NoZero (t : Tape) (i j : Nat) : Prop := ∀ k, i ≤ k → k < j → t.get? k ≠ some 0

instance (t : Tape) (i j : Nat) : Decidable (t.NoZero i j) :=
  inferInstanceAs (Decidable (∀ k, i ≤ k → k < j → t.get? k ≠ some 0))

/-- The first zero from index `i` on is at index `z`. -/
structure FirstZero (t : Tape) (i z : Nat) : Prop where
  le : i ≤ z
  zero : t.get? z = some 0
  before : t.NoZero i z

variable {t : Tape} {i j z : Nat} {v : Int}

theorem segment_self (t : Tape) (i : Nat) : t.segment i i = [] := by
  simp [segment]

theorem segment_cons (hv : t.get? i = some v) (hij : i < j) :
    t.segment i j = v :: t.segment (i + 1) j := by
  obtain ⟨hi, rfl⟩ := Array.getElem?_eq_some_iff.1 hv
  have hsub : j - i = j - (i + 1) + 1 := by omega
  have hlen : i < t.cells.toList.length := hi
  simp only [segment, Array.toList_extract, List.extract_eq_take_drop, hsub]
  rw [List.drop_eq_getElem_cons hlen, List.take_succ_cons, Array.getElem_toList]

theorem segment_succ (hv : t.get? j = some v) (hij : i ≤ j) :
    t.segment i (j + 1) = t.segment i j ++ [v] := by
  obtain ⟨hj, rfl⟩ := Array.getElem?_eq_some_iff.1 hv
  have hsub : j + 1 - i = j - i + 1 := by omega
  have hadd : i + (j - i) = j := by omega
  have hat : t.cells.toList[j]? = some t.cells[j] := by simp [hj]
  simp only [segment, Array.toList_extract, List.extract_eq_take_drop, hsub, List.take_add_one,
    List.getElem?_drop, hadd, hat, Option.toList_some]

theorem get?_of_lt (hi : i < t.cells.size) : t.get? i = some (t.cells.getD i 0) := by
  simp [get?, hi]

theorem segment_perm (t : Tape) (i : Nat) :
    (t.segment i t.cells.size ++ t.segment 0 i).Perm t.cells.toList := by
  have hrest : (t.cells.toList.drop i).length ≤ t.cells.size - i := by simp
  have hsegment : t.segment i t.cells.size = t.cells.toList.drop i := by
    simp only [segment, Array.toList_extract, List.extract_eq_take_drop]
    exact List.take_of_length_le hrest
  have hfront : t.segment 0 i = t.cells.toList.take i := by
    simp [segment, List.extract_eq_take_drop]
  rw [hsegment, hfront]
  exact List.perm_append_comm.trans (.of_eq (List.take_append_drop i _))

/-! ### First zeros -/

theorem FirstZero.lt_size (h : t.FirstZero i z) : z < t.cells.size :=
  (Array.getElem?_eq_some_iff.1 h.zero).1

/-- From any cell on there is a first zero or there is none. -/
theorem exists_firstZero_or (t : Tape) (i : Nat) :
    (∃ z, t.FirstZero i z) ∨ t.NoZero i t.cells.size := by
  by_cases h : ∃ k, i ≤ k ∧ t.get? k = some 0
  · classical
    obtain ⟨hle, hz⟩ := Nat.find_spec h
    exact .inl ⟨Nat.find h, hle, hz, fun k hk hlt hzero => Nat.find_min h hlt ⟨hk, hzero⟩⟩
  · exact .inr fun k hk _ hz => h ⟨k, hk, hz⟩

end Tape

namespace Session

variable {s : Session} {mode : OutputMode} {vs : List Int} {i j k n : Nat}

@[simp]
theorem segment_printed :
    (s.printed mode vs i).machine.tape.segment j k = s.machine.tape.segment j k := rfl

@[simp]
theorem noZero_printed :
    (s.printed mode vs i).machine.tape.NoZero j k ↔ s.machine.tape.NoZero j k := .rfl

/-- The session with one more cell, a zero, behind its tape. -/
def extended (s : Session) : Session :=
  { s with
    machine :=
      { s.machine with
        tape := { s.machine.tape with cells := s.machine.tape.cells.push 0 } } }

theorem ptr_last (hp : 0 < s.machine.tape.cells.size) :
    (s.printed mode vs (s.machine.tape.cells.size - 1)).machine.tape.ptr + 1 =
      (s.printed mode vs (s.machine.tape.cells.size - 1)).machine.tape.cells.size :=
  Nat.sub_add_cancel hp

/-! ### The loop -/

theorem drainCells_of_zero (hz : s.cell = 0) (n : Nat) : drainCells mode n s = (.ok (), s) := by
  cases n with
  | zero => rfl
  | succ n => simp [drainCells, hz]

theorem drainCells_of_nonzero (hk : s.stream.sink.capacity = none) (hz : s.cell ≠ 0) (n : Nat) :
    drainCells mode (n + 1) s =
      (do
        advance
        drainCells mode n : Act Session Unit)
        (s.printed mode [s.cell] s.machine.tape.ptr) := by
  rw [drainCells]
  dsimp only
  rw [if_neg hz, bind_apply, put_apply mode hk]

theorem get?_ptr (hp : s.machine.tape.ptr < s.machine.tape.cells.size) :
    s.machine.tape.get? s.machine.tape.ptr = some s.cell :=
  Tape.get?_of_lt hp

theorem drainCells_segment (mode : OutputMode) (hk : s.stream.sink.capacity = none)
    (hz : s.machine.tape.ptr + k < s.machine.tape.cells.size)
    (hn : s.machine.tape.NoZero s.machine.tape.ptr (s.machine.tape.ptr + k)) (n : Nat) :
    drainCells mode (n + k) s =
      drainCells mode n
        (s.printed mode (s.machine.tape.segment s.machine.tape.ptr (s.machine.tape.ptr + k))
          (s.machine.tape.ptr + k)) := by
  induction k generalizing s with
  | zero => simp only [Nat.add_zero, Tape.segment_self, printed_nil]
  | succ k ih =>
    have hget := get?_ptr (s := s) (by omega)
    have hnz : s.cell ≠ 0 := fun h => hn _ (Nat.le_refl _) (by omega) (h ▸ hget)
    have hnext : s.machine.tape.ptr + 1 + k = s.machine.tape.ptr + (k + 1) := by omega
    rw [← Nat.add_assoc, drainCells_of_nonzero hk hnz, bind_apply, advance_printed (by omega),
      Tape.segment_cons hget (by omega)]
    have hrest := ih (s := s.printed mode [s.cell] (s.machine.tape.ptr + 1))
    simp only [capacity_printed, ptr_printed, cells_printed, noZero_printed, segment_printed,
      printed_printed, List.singleton_append, hnext] at hrest
    exact hrest hk (by omega) fun l hl hlt => hn l (by omega) (by omega)

/-- From the pointer to the last cell, and the step from there. -/
theorem drainCells_toEnd (hk : s.stream.sink.capacity = none)
    (hp : s.machine.tape.ptr < s.machine.tape.cells.size)
    (hn : s.machine.tape.NoZero s.machine.tape.ptr s.machine.tape.cells.size) (n : Nat) :
    drainCells mode (n + (s.machine.tape.cells.size - s.machine.tape.ptr)) s =
      (do
        advance
        drainCells mode n : Act Session Unit)
        (s.printed mode (s.machine.tape.segment s.machine.tape.ptr s.machine.tape.cells.size)
          (s.machine.tape.cells.size - 1)) := by
  generalize hL : s.machine.tape.cells.size = L at hp hn ⊢
  obtain ⟨k, rfl⟩ : ∃ k, L = s.machine.tape.ptr + k + 1 := ⟨L - s.machine.tape.ptr - 1, by omega⟩
  have hget := Tape.get?_of_lt (t := s.machine.tape) (i := s.machine.tape.ptr + k) (by omega)
  generalize s.machine.tape.cells.getD (s.machine.tape.ptr + k) 0 = v at hget
  have hcount : n + (s.machine.tape.ptr + k + 1 - s.machine.tape.ptr) = n + 1 + k := by omega
  have hsegment := drainCells_segment (k := k) mode hk (by omega)
    (fun l hl hlt => hn l hl (by omega)) (n + 1)
  rw [hcount, hsegment, Tape.segment_succ hget (by omega), Nat.add_sub_cancel]
  generalize hs' : s.printed mode (s.machine.tape.segment s.machine.tape.ptr _) _ = s'
  have hlast : s'.cell = v := by
    rw [← hs']
    exact cell_of_get? hget
  have hnz : s'.cell ≠ 0 := fun h => hn _ (by omega) (by omega) (h ▸ hlast ▸ hget)
  rw [drainCells_of_nonzero (hs' ▸ hk) hnz, hlast, ← hs', printed_printed]
  rfl

/-! ### The hook -/

theorem drain_of_firstZero (hk : s.stream.sink.capacity = none) {z : Nat}
    (hz : s.machine.tape.FirstZero s.machine.tape.ptr z) :
    drain mode s =
      (.ok (), s.printed mode (s.machine.tape.segment s.machine.tape.ptr z) z) := by
  have hlt := hz.lt_size
  obtain ⟨k, rfl⟩ := Nat.exists_eq_add_of_le hz.le
  have hcount : s.machine.tape.cells.size = s.machine.tape.cells.size - k + k := by omega
  rw [drain, hcount, drainCells_segment mode hk hlt hz.before]
  exact drainCells_of_zero (cell_of_get? hz.zero) _

/-- Without a zero from the pointer on, as many rounds are left at the end as there are cells in
front of the pointer. -/
theorem drain_toEnd (hk : s.stream.sink.capacity = none)
    (hp : s.machine.tape.ptr < s.machine.tape.cells.size)
    (hn : s.machine.tape.NoZero s.machine.tape.ptr s.machine.tape.cells.size) :
    drain mode s =
      (do
        advance
        drainCells mode s.machine.tape.ptr : Act Session Unit)
        (s.printed mode (s.machine.tape.segment s.machine.tape.ptr s.machine.tape.cells.size)
          (s.machine.tape.cells.size - 1)) := by
  have hcount : s.machine.tape.cells.size =
      s.machine.tape.ptr + (s.machine.tape.cells.size - s.machine.tape.ptr) := by omega
  rw [← drainCells_toEnd hk hp hn, ← hcount]
  rfl

theorem keeps_advance_get? {v : Int} :
    Keeps advance fun s => s.machine.tape.get? i = some v :=
  fun s => Tape.keeps_seek_get? (s.machine.tape.ptr + 1) s.machine.tape

theorem keeps_drain_get? (mode : OutputMode) {v : Int} :
    Keeps (drain mode) fun s => s.machine.tape.get? i = some v :=
  fun s hs =>
    keeps_drainCells (P := fun m => m.tape.get? i = some v) keeps_advance_get? mode
      s.machine.tape.cells.size s hs

section NoZero

variable (hk : s.stream.sink.capacity = none)
  (hp : s.machine.tape.ptr < s.machine.tape.cells.size)
  (hn : s.machine.tape.NoZero s.machine.tape.ptr s.machine.tape.cells.size)
include hk hp hn

theorem drain_error (he : s.machine.tape.edge = .error) :
    drain mode s =
      (.error (.pointerOutOfRange s.machine.tape.cells.size s.machine.tape.cells.size),
        s.printed mode (s.machine.tape.segment s.machine.tape.ptr s.machine.tape.cells.size)
          (s.machine.tape.cells.size - 1)) := by
  rw [drain_toEnd hk hp hn, bind_apply, advance, onMachine_apply, onTape_apply,
    Tape.shift_error (ptr_last (by omega)) he]
  rfl

theorem drain_grow (he : s.machine.tape.edge = .grow)
    (hl : s.machine.tape.cells.size < Tape.growLimit) :
    drain mode s =
      (.ok (),
        (s.printed mode (s.machine.tape.segment s.machine.tape.ptr s.machine.tape.cells.size)
          s.machine.tape.cells.size).extended) := by
  rw [drain_toEnd hk hp hn, bind_apply, advance, onMachine_apply, onTape_apply,
    Tape.shift_grow (ptr_last (by omega)) he hl]
  -- The pointer is on the new cell, which is a zero.
  exact drainCells_of_zero (cell_of_get? (by simp [Tape.get?])) _

theorem drain_grow_limit (he : s.machine.tape.edge = .grow)
    (hl : Tape.growLimit ≤ s.machine.tape.cells.size) :
    drain mode s =
      (.error (.pointerOutOfRange (Tape.signedIndex s.machine.tape.cells.size)
          s.machine.tape.cells.size),
        s.printed mode (s.machine.tape.segment s.machine.tape.ptr s.machine.tape.cells.size)
          (s.machine.tape.cells.size - 1)) := by
  rw [drain_toEnd hk hp hn, bind_apply, advance, onMachine_apply, onTape_apply,
    Tape.shift_grow_limit (ptr_last (by omega)) he hl]
  rfl

/-- Behind the edge the loop comes to the first zero, or to the cell where it began. -/
theorem drain_wrap (he : s.machine.tape.edge = .wrap) {z : Nat} (hz : z ≤ s.machine.tape.ptr)
    (hb : s.machine.tape.NoZero 0 z)
    (hstop : z = s.machine.tape.ptr ∨ s.machine.tape.get? z = some 0) :
    drain mode s =
      (.ok (),
        s.printed mode (s.machine.tape.segment s.machine.tape.ptr s.machine.tape.cells.size ++
          s.machine.tape.segment 0 z) z) := by
  rw [drain_toEnd hk hp hn, bind_apply, advance, onMachine_apply, onTape_apply,
    Tape.shift_wrap (ptr_last (by omega)) he]
  generalize s.machine.tape.segment s.machine.tape.ptr s.machine.tape.cells.size = vs
  have hsegment := drainCells_segment (s := s.printed mode vs 0) (k := z) mode
  simp only [capacity_printed, ptr_printed, cells_printed, noZero_printed, segment_printed,
    Nat.zero_add, printed_printed] at hsegment
  have hcount : s.machine.tape.ptr = s.machine.tape.ptr - z + z := by omega
  rw [hcount]
  refine (hsegment hk (by omega) hb _).trans ?_
  rcases hstop with rfl | hzero
  · rw [Nat.sub_self]
    rfl
  · exact drainCells_of_zero (cell_of_get? hzero) _

end NoZero

end Session

namespace Handler

/-- The zero that stops the hook is the first one from the pointer on; if there is none, what happens
is up to the edge. A tape that wraps around is then searched from its first cell on, and written as
a whole if it has no zero at all. What is printed is spelled out behind the earlier output. -/
theorem run_drain {d : Setting} {s : Session} (hs : s.Sound d.config 0)
    (hk : s.stream.sink.capacity = none) :
    let t := s.machine.tape
    let L := t.cells.size
    let p := t.ptr
    (∀ z, t.FirstZero p z →
      drain.run d s = (.ok (), s.printed d.config.output (t.segment p z) z)) ∧
    (t.NoZero p L →
      (d.config.edge = .error →
        drain.run d s =
          (.error (.pointerOutOfRange L L),
            s.printed d.config.output (t.segment p L) (L - 1))) ∧
      (d.config.edge = .grow → L < 2 ^ 24 →
        drain.run d s = (.ok (), (s.printed d.config.output (t.segment p L) L).extended)) ∧
      (d.config.edge = .grow → 2 ^ 24 ≤ L →
        drain.run d s =
          (.error (.pointerOutOfRange (Tape.signedIndex L) L),
            s.printed d.config.output (t.segment p L) (L - 1)) ∧
        (L < 2 ^ 63 → Tape.signedIndex L = L)) ∧
      (d.config.edge = .wrap →
        (∀ z, t.FirstZero 0 z →
          drain.run d s =
            (.ok (), s.printed d.config.output (t.segment p L ++ t.segment 0 z) z)) ∧
        (t.NoZero 0 L →
          drain.run d s =
            (.ok (), s.printed d.config.output (t.segment p L ++ t.segment 0 p) p) ∧
          (t.segment p L ++ t.segment 0 p).Perm t.cells.toList))) ∧
    ((∃ z, t.FirstZero p z) ∨ t.NoZero p L) ∧
    (∀ vs i, ∃ bss, List.Forall₂ (Stream.Spells d.config.output) vs bss ∧
      (s.printed d.config.output vs i).stream.sink.written =
        s.stream.sink.written ++ bss.flatten.toArray) ∧
    ∀ i v, t.get? i = some v → (drain.run d s).2.machine.tape.get? i = some v := by
  intro t L p
  have hp : p < L := hs.conforms.ptr_lt
  have hedge : t.edge = d.config.edge := hs.conforms.edge_eq
  have hfirst : ∀ z, t.FirstZero p z →
      drain.run d s = (.ok (), s.printed d.config.output (t.segment p z) z) :=
    fun z hz => Session.drain_of_firstZero hk hz
  have hwrap : t.NoZero p L → d.config.edge = .wrap → ∀ z, z ≤ p → t.NoZero 0 z →
      (z = p ∨ t.get? z = some 0) →
      drain.run d s = (.ok (), s.printed d.config.output (t.segment p L ++ t.segment 0 z) z) :=
    fun hn he z hz hb hstop => Session.drain_wrap hk hp hn (hedge.trans he) hz hb hstop
  have hzeroWrap : t.NoZero p L → d.config.edge = .wrap → ∀ z, t.FirstZero 0 z →
      drain.run d s = (.ok (), s.printed d.config.output (t.segment p L ++ t.segment 0 z) z) := by
    intro hn he z hz
    have hle : z ≤ p := Nat.le_of_not_lt fun h => hn z (Nat.le_of_lt h) hz.lt_size hz.zero
    exact hwrap hn he z hle hz.before (.inr hz.zero)
  have hkeep : ∀ i v, t.get? i = some v → (drain.run d s).2.machine.tape.get? i = some v :=
    fun i v hv => Session.keeps_drain_get? d.config.output s hv
  refine ⟨hfirst, fun hn => ⟨?_, ?_, ?_, fun he => ⟨hzeroWrap hn he, ?_⟩⟩,
    t.exists_firstZero_or p, s.written_printed d.config.output, hkeep⟩
  · exact fun he => Session.drain_error hk hp hn (hedge.trans he)
  · exact fun he hl => Session.drain_grow hk hp hn (hedge.trans he) hl
  · exact fun he hl =>
      ⟨Session.drain_grow_limit hk hp hn (hedge.trans he) hl, Tape.signedIndex_of_lt⟩
  · intro hz
    exact ⟨hwrap hn he p (Nat.le_refl p) (fun k hk hlt => hz k hk (by omega)) (.inl rfl),
      t.segment_perm p⟩

/-- Three cells without a zero that form a ring are written from the pointer on, each of them once. -/
theorem run_drain_ring :
    let d : Setting :=
      { Catalog.commdis.toSetting with config := { tapeSize := 3, edge := .wrap } }
    let s : Session := ⟨⟨⟨#[104, 105, 33], 1, 0, 255, false, .wrap⟩, #[], 0, 0⟩, {}⟩
    s.Sound d.config 0 ∧ s.stream.sink.capacity = none ∧ s.machine.tape.NoZero 0 3 ∧
      drain.run d s = (.ok (), ⟨s.machine, { sink := { written := #[105, 33, 104] } }⟩) := by
  intro d s
  have hs : s.Sound d.config 0 :=
    ⟨⟨⟨rfl, rfl, rfl, rfl⟩, by decide, by decide, by decide, by decide, by decide⟩, by decide⟩
  have hn : s.machine.tape.NoZero 0 3 := by decide
  have hall := ((run_drain hs rfl).2.1 (by decide)).2.2.2 rfl
  have hbytes : s.printed .char [105, 33, 104] 1 =
      ⟨s.machine, { sink := { written := #[105, 33, 104] } }⟩ := by
    decide +kernel
  exact ⟨hs, rfl, hn, hbytes ▸ (hall.2 hn).1⟩

end Handler

end TapeDialects
