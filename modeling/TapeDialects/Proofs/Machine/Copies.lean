import TapeDialects.Proofs.Act.Keeps
import TapeDialects.Proofs.TokenTable.Lookup

/-!
# Copies between program and tape

What the two copies of a self-modifying dialect do, as equations on the cells and instructions.
Storing writes the positions of the opcodes, cell by cell, and reading gives each instruction the
opcode of its cell. Behind a copy in either direction code and data are in lockstep
(`Machine.InLockstep`): as far as both go, every cell is the position of its instruction's opcode,
and the cells behind the program are zero. Storing a program that is in lockstep changes nothing.
-/

namespace TapeDialects

open Act

variable {t : TokenTable} {op : Opcode} {v : Int} {tape : Tape} {p : Program} {i : Nat}

/-! ### Positions -/

namespace TokenTable

/-- The value is the position of the opcode. -/
def Denotes (t : TokenTable) (v : Int) (op : Opcode) : Prop :=
  ∃ k : Nat, t.position? op = some k ∧ v = k

theorem opcodeOfCell?_eq_some_iff : t.opcodeOfCell? v = some op ↔ t.Denotes v op := by
  simp only [Denotes, position?_eq_some_iff, opcodeOfCell?]
  constructor
  · intro h
    split at h
    · next hv => exact ⟨v.toNat, h, (Int.toNat_of_nonneg hv).symm⟩
    · contradiction
  · rintro ⟨k, hk, rfl⟩
    simpa using hk

theorem mem_opcodes_of_denotes (h : t.Denotes v op) : op ∈ t.opcodes := by
  obtain ⟨k, hk, -⟩ := h
  obtain ⟨e, he, rfl⟩ := Option.map_eq_some_iff.1 (position?_eq_some_iff.1 hk)
  exact mem_opcodes (List.mem_of_getElem? he)

end TokenTable

open TokenTable

/-! ### Storing -/

namespace Tape

theorem setAt_of_fit (hf : tape.fit v = .ok v) (hi : i < tape.cells.size) :
    setAt i v tape = (.ok (), { tape with cells := tape.cells.setIfInBounds i v }) := by
  simp [setAt, hf, hi]

theorem storePositions_ok (tape : Tape) (xs : List Instruction) {i : Nat}
    (hx : ∀ x ∈ xs, ∃ k : Nat, t.position? x.op = some k ∧ tape.fit k = .ok (k : Int))
    (hi : i + xs.length ≤ tape.cells.size) :
    ∃ cells, storePositions t xs i tape = (.ok (), { tape with cells := cells }) ∧
      cells.size = tape.cells.size ∧
      (∀ j, j < i ∨ i + xs.length ≤ j → cells[j]? = tape.cells[j]?) ∧
      ∀ j x, xs[j]? = some x → ∃ v, cells[i + j]? = some v ∧ t.Denotes v x.op := by
  induction xs generalizing i tape with
  | nil => exact ⟨tape.cells, rfl, rfl, fun _ _ => rfl, by simp⟩
  | cons x xs ih =>
    rw [List.length_cons] at hi
    obtain ⟨k, hk, hf⟩ := hx x (List.mem_cons_self ..)
    have hset := setAt_of_fit hf (i := i) (by omega)
    -- A write changes a cell and no policy, so what fitted before it still does.
    obtain ⟨cells, hs, hsize, hframe, hat⟩ :=
      ih { tape with cells := tape.cells.setIfInBounds i (k : Int) } (i := i + 1)
        (fun y hy => hx y (List.mem_cons_of_mem x hy))
        (by simp only [Array.size_setIfInBounds]; omega)
    refine ⟨cells, ?_, by simpa using hsize, fun j hj => ?_, fun j y hy => ?_⟩
    · rw [storePositions, hk]
      dsimp only
      rw [bind_apply, hset]
      exact hs
    · rw [List.length_cons] at hj
      rw [hframe j (by omega)]
      exact Array.getElem?_setIfInBounds_ne (by omega)
    · cases j with
      | zero =>
        obtain rfl : x = y := by simpa using hy
        refine ⟨k, ?_, k, hk, rfl⟩
        rw [Nat.add_zero, hframe i (by omega)]
        exact Array.getElem?_setIfInBounds_self_of_lt (by omega)
      | succ j =>
        obtain ⟨v, hv, hd⟩ := hat j y (by simpa using hy)
        exact ⟨v, by rw [← hv]; congr 1; omega, hd⟩

theorem storePositions_eq_self (hf : ∀ v ∈ tape.cells, tape.fit v = .ok v) {xs : List Instruction}
    (hx : ∀ j x, xs[j]? = some x → ∃ v, tape.cells[i + j]? = some v ∧ t.Denotes v x.op) :
    storePositions t xs i tape = (.ok (), tape) := by
  induction xs generalizing i with
  | nil => rfl
  | cons x xs ih =>
    obtain ⟨v, hv, k, hk, rfl⟩ := hx 0 x rfl
    rw [Nat.add_zero] at hv
    obtain ⟨hi, hvi⟩ := Array.getElem?_eq_some_iff.1 hv
    have hsame : tape.cells.setIfInBounds i (k : Int) = tape.cells := by
      refine Array.ext_getElem? fun j => ?_
      rw [Array.getElem?_setIfInBounds]
      split
      · next hj => rw [← hj, hv]
      · rfl
    have hset := setAt_of_fit (hf k (Array.mem_of_getElem? hv)) hi
    rw [hsame] at hset
    have hrest := ih (i := i + 1) fun j y hy => by
      obtain ⟨w, hw, hd⟩ := hx (j + 1) y (by simpa using hy)
      exact ⟨w, by rw [← hw]; congr 1; omega, hd⟩
    rw [storePositions, hk]
    dsimp only
    rw [bind_apply, hset]
    exact hrest

/-! ### Cells in use -/

theorem usedBefore_le (cells : Array Int) (i : Nat) : usedBefore cells i ≤ i := by
  induction i with
  | zero => exact Nat.le_refl _
  | succ i ih =>
    rw [usedBefore]
    split <;> omega

theorem getD_of_usedBefore_le {cells : Array Int} {n j : Nat} (h : usedBefore cells n ≤ j)
    (hj : j < n) : cells.getD j 0 = 0 := by
  induction n with
  | zero => omega
  | succ n ih =>
    rw [usedBefore] at h
    split at h
    · next hz =>
      rcases Nat.lt_succ_iff_lt_or_eq.1 hj with hj | rfl
      · exact ih h hj
      · exact hz
    · omega

theorem eq_zero_of_used_le (h : tape.used ≤ i) (hv : tape.get? i = some v) : v = 0 := by
  have hi : i < tape.cells.size := (Array.getElem?_eq_some_iff.1 hv).1
  have hz := getD_of_usedBefore_le h hi
  rwa [Array.getD_eq_getD_getElem?, show tape.cells[i]? = some v from hv] at hz

theorem getElem?_extract (tape : Tape) {n j : Nat} (hj : j < n) :
    (tape.cells.extract 0 n).toList[j]? = tape.get? j := by
  rw [Array.getElem?_toList, Array.getElem?_extract, Nat.zero_add, Nat.sub_zero, get?]
  split
  · rfl
  · exact (Array.getElem?_eq_none (by omega)).symm

end Tape

/-! ### Reading -/

namespace Program

def Known (t : TokenTable) (p : Program) : Prop := ∀ x ∈ p, x.op ∈ t.opcodes

theorem size_putOpcode (op : Opcode) (hi : i ≤ p.size) :
    (p.putOpcode i op).size = max p.size (i + 1) := by
  unfold putOpcode
  split
  · next h =>
    have := Array.getElem?_eq_none_iff.1 h
    rw [Array.size_push]
    omega
  · next h =>
    have := (Array.getElem?_eq_some_iff.1 h).1
    split
    · omega
    · rw [Array.size_setIfInBounds]
      omega

/-- The instruction at an index once it has been given an opcode: the old one if it has it already,
otherwise a new one without a literal. -/
def rewritten (p : Program) (i : Nat) (op : Opcode) : Instruction :=
  (p[i]?.filter fun x => x.op = op).getD { op := op }

theorem rewritten_of_same {x : Instruction} (hx : p[i]? = some x) (ho : x.op = op) :
    p.rewritten i op = x := by
  rw [rewritten, hx, Option.filter_some, if_pos (decide_eq_true ho), Option.getD_some]

theorem rewritten_of_ne (h : p[i]?.map (·.op) ≠ some op) : p.rewritten i op = { op := op } := by
  unfold rewritten
  cases hx : p[i]? with
  | none => rfl
  | some x =>
    have ho : x.op ≠ op := by simpa [hx] using h
    rw [Option.filter_some, if_neg (by simpa using ho), Option.getD_none]

theorem op_rewritten (p : Program) (i : Nat) (op : Opcode) : (p.rewritten i op).op = op := by
  by_cases h : p[i]?.map (·.op) = some op
  · obtain ⟨x, hx, ho⟩ := Option.map_eq_some_iff.1 h
    rw [rewritten_of_same hx ho, ho]
  · rw [rewritten_of_ne h]

theorem getElem?_putOpcode_self (op : Opcode) (hi : i ≤ p.size) :
    (p.putOpcode i op)[i]? = some (p.rewritten i op) := by
  unfold putOpcode
  split
  · next h =>
    obtain rfl : i = p.size := Nat.le_antisymm hi (Array.getElem?_eq_none_iff.1 h)
    rw [rewritten_of_ne (by simp)]
    exact Array.getElem?_push_size
  · next x h =>
    split
    · next ho => rw [h, rewritten_of_same h ho]
    · next ho =>
      rw [rewritten_of_ne (by simpa [h] using ho)]
      exact Array.getElem?_setIfInBounds_self_of_lt (Array.getElem?_eq_some_iff.1 h).1

theorem getElem?_putOpcode_ne (hi : i ≤ p.size) {j : Nat} (hj : j ≠ i) :
    (p.putOpcode i op)[j]? = p[j]? := by
  unfold putOpcode
  split
  · next h =>
    obtain rfl : i = p.size := Nat.le_antisymm hi (Array.getElem?_eq_none_iff.1 h)
    rw [Array.getElem?_push, if_neg hj]
  · split
    · rfl
    · exact Array.getElem?_setIfInBounds_ne (by omega)

theorem known_putOpcode (hp : p.Known t) (ho : op ∈ t.opcodes) (i : Nat) :
    (p.putOpcode i op).Known t := by
  unfold putOpcode
  split
  · intro x hx
    rcases Array.mem_push.1 hx with hx | rfl
    · exact hp x hx
    · exact ho
  · split
    · exact hp
    · intro x hx
      rcases Array.mem_or_eq_of_mem_setIfInBounds hx with hx | rfl
      · exact hp x hx
      · exact ho

theorem known_readCells (vs : List Int) (i : Nat) : Keeps (readCells t vs i) (Known t) := by
  induction vs generalizing i with
  | nil => exact keeps_pure ()
  | cons v vs ih =>
    intro p hp
    rw [readCells]
    split
    · exact hp
    · next op ho =>
      have hm := mem_opcodes_of_denotes (opcodeOfCell?_eq_some_iff.1 ho)
      exact ih (i + 1) _ (known_putOpcode hp hm i)

theorem readCells_ok (vs : List Int) (hv : ∀ v ∈ vs, ∃ op, t.Denotes v op) (hi : i ≤ p.size) :
    ∃ q, readCells t vs i p = (.ok (), q) ∧ q.size = max p.size (i + vs.length) ∧
      (∀ j, j < i ∨ i + vs.length ≤ j → q[j]? = p[j]?) ∧
      ∀ j v, vs[j]? = some v →
        ∃ op, t.Denotes v op ∧ q[i + j]? = some (p.rewritten (i + j) op) := by
  induction vs generalizing i p with
  | nil => exact ⟨p, rfl, by rw [List.length_nil]; omega, fun _ _ => rfl, by simp⟩
  | cons v vs ih =>
    obtain ⟨op, hd⟩ := hv v (List.mem_cons_self ..)
    have hsize := size_putOpcode op hi
    have hne {j : Nat} (hj : j ≠ i) : (p.putOpcode i op)[j]? = p[j]? := getElem?_putOpcode_ne hi hj
    obtain ⟨q, hq, hqs, hframe, hat⟩ :=
      ih (i := i + 1) (p := p.putOpcode i op) (fun w hw => hv w (List.mem_cons_of_mem v hw))
        (by omega)
    refine ⟨q, ?_, ?_, fun j hj => ?_, fun j w hw => ?_⟩
    · rw [readCells, opcodeOfCell?_eq_some_iff.2 hd]
      exact hq
    · rw [hqs, List.length_cons]
      omega
    · rw [List.length_cons] at hj
      rw [hframe j (by omega), hne (by omega)]
    · cases j with
      | zero =>
        obtain rfl : v = w := by simpa using hw
        refine ⟨op, hd, ?_⟩
        rw [Nat.add_zero, hframe i (by omega), getElem?_putOpcode_self op hi]
      | succ j =>
        obtain ⟨op', hd', hx⟩ := hat j w (by simpa using hw)
        refine ⟨op', hd', ?_⟩
        rw [show i + (j + 1) = i + 1 + j by omega, hx, rewritten, rewritten, hne (by omega)]

end Program

/-! ### Lockstep -/

namespace Machine

/-- As far as both program and tape go, every cell is the position of its instruction's opcode; the
cells behind the program are zero. -/
structure InLockstep (t : TokenTable) (m : Machine) : Prop where
  positions : ∀ i x v, m.program[i]? = some x → m.tape.get? i = some v → t.Denotes v x.op
  zeros : ∀ i v, m.program.size ≤ i → m.tape.get? i = some v → v = 0

variable {m : Machine}

theorem storeProgram_apply (t : TokenTable) (m : Machine) :
    storeProgram t m =
      ((Tape.storeProgram t m.program m.tape).1,
        { m with tape := (Tape.storeProgram t m.program m.tape).2 }) := rfl

theorem readProgram_apply (t : TokenTable) (m : Machine) :
    readProgram t m =
      ((Program.readTape t m.tape m.program).1,
        { m with program := (Program.readTape t m.tape m.program).2 }) := rfl

/-- A program of known opcodes can be stored, and code and data are in lockstep if the cells behind
it were zero. -/
theorem storeProgram_ok (hk : m.program.Known t)
    (hf : ∀ k < t.size, m.tape.fit (k : Int) = .ok (k : Int))
    (hz : ∀ i v, m.program.size ≤ i → m.tape.get? i = some v → v = 0) :
    ∃ cells, storeProgram t m = (.ok (), { m with tape := { m.tape with cells := cells } }) ∧
      InLockstep t { m with tape := { m.tape with cells := cells } } := by
  obtain ⟨cells, hs, hsize, hframe, hat⟩ :=
    Tape.storePositions_ok m.tape (m.program.toList.take m.tape.cells.size) (i := 0)
      (fun x hx => by
        obtain ⟨k, hkt, hk⟩ := position?_of_mem (hk x (by simpa using List.mem_of_mem_take hx))
        exact ⟨k, hk, hf k hkt⟩)
      (by simp only [List.length_take]; omega)
  refine ⟨cells, ?_, ?_, ?_⟩
  · rw [storeProgram_apply, Tape.storeProgram, hs]
  · intro i x v hx hv
    have hi : i < m.tape.cells.size := hsize ▸ (Array.getElem?_eq_some_iff.1 hv).1
    obtain ⟨w, hw, hd⟩ := hat i x (by rw [List.getElem?_take_of_lt hi]; simpa using hx)
    rw [Nat.zero_add] at hw
    obtain rfl : w = v := Option.some.inj (hw.symm.trans hv)
    exact hd
  · intro i v hi hv
    refine hz i v hi ?_
    rw [← hv]
    refine (hframe i (.inr ?_)).symm
    simp only [List.length_take, Array.length_toList]
    dsimp only at hi
    omega

theorem storeProgram_eq_self (hl : m.InLockstep t)
    (hf : ∀ v ∈ m.tape.cells, m.tape.fit v = .ok v) : storeProgram t m = (.ok (), m) := by
  have hs : Tape.storeProgram t m.program m.tape = (.ok (), m.tape) := by
    refine Tape.storePositions_eq_self hf fun j x hx => ?_
    have hj : j < m.tape.cells.size := by
      have := (List.getElem?_eq_some_iff.1 hx).1
      simp only [List.length_take] at this
      omega
    rw [List.getElem?_take_of_lt hj] at hx
    refine ⟨m.tape.cells[j], by simp [hj], ?_⟩
    exact hl.positions j x _ (by simpa using hx) (by simp [Tape.get?, hj])
  rw [storeProgram_apply, hs]

/-- Reading succeeds if every cell below the end of the program or in use is a position. An
instruction keeps its literal where its opcode stays, and where the tape has no cell for it. -/
theorem readProgram_ok
    (hv : ∀ i v, i < max m.program.size m.tape.used → m.tape.get? i = some v →
      ∃ op, t.Denotes v op) :
    ∃ p, readProgram t m = (.ok (), { m with program := p }) ∧
      p.size = max m.program.size m.tape.used ∧ InLockstep t { m with program := p } ∧
      ∀ i x, p[i]? = some x →
        if m.tape.size ≤ i ∨ m.program[i]?.map (·.op) = some x.op then m.program[i]? = some x
        else x.literal = none := by
  have hu : m.tape.used ≤ m.tape.cells.size := Tape.usedBefore_le _ _
  obtain ⟨n, hn⟩ : ∃ n, n = min (max m.program.size m.tape.used) m.tape.cells.size := ⟨_, rfl⟩
  have hget {j : Nat} (hj : j < n) : (m.tape.cells.extract 0 n).toList[j]? = m.tape.get? j :=
    Tape.getElem?_extract m.tape hj
  have hlength : (m.tape.cells.extract 0 n).toList.length = n := by
    simp only [Array.length_toList, Array.size_extract]
    omega
  obtain ⟨p, hp, hsize, hframe, hat⟩ :=
    Program.readCells_ok (t := t) (p := m.program) (i := 0) (m.tape.cells.extract 0 n).toList
      (fun v hm => by
        obtain ⟨j, hj⟩ := List.mem_iff_getElem?.1 hm
        have hjn : j < n := hlength ▸ (List.getElem?_eq_some_iff.1 hj).1
        exact hv j v (by omega) ((hget hjn).symm.trans hj))
      (Nat.zero_le _)
  simp only [Nat.zero_add, hlength] at hsize hframe hat
  refine ⟨p, ?_, by omega, ⟨?_, ?_⟩, ?_⟩
  · rw [readProgram_apply, Program.readTape, ← hn, hp]
  · intro i x v hx hg
    have hi : i < n := by
      have h1 := (Array.getElem?_eq_some_iff.1 hx).1
      have h2 := (Array.getElem?_eq_some_iff.1 hg).1
      dsimp only at h1 h2
      omega
    obtain ⟨op, hd, hy⟩ := hat i v ((hget hi).trans hg)
    obtain rfl : m.program.rewritten i op = x := Option.some.inj (hy.symm.trans hx)
    rwa [Program.op_rewritten]
  · intro i v hi hg
    have hu : m.tape.used ≤ i := by
      dsimp only at hi
      omega
    exact Tape.eq_zero_of_used_le hu hg
  · intro i x hx
    have hi := (Array.getElem?_eq_some_iff.1 hx).1
    by_cases hin : i < n
    · have hlt : i < m.tape.cells.size := by omega
      obtain ⟨op, -, hy⟩ := hat i m.tape.cells[i] ((hget hin).trans (Array.getElem?_eq_getElem hlt))
      obtain rfl : m.program.rewritten i op = x := Option.some.inj (hy.symm.trans hx)
      rw [Program.op_rewritten]
      split
      · next h =>
        obtain ⟨y, hy, ho⟩ := Option.map_eq_some_iff.1 (h.resolve_left (Nat.not_le.2 hlt))
        rw [hy, Program.rewritten_of_same hy ho]
      · next h => rw [Program.rewritten_of_ne fun ho => h (.inr ho)]
    · have hle : m.tape.size ≤ i := by
        show m.tape.cells.size ≤ i
        omega
      rw [if_pos (.inl hle), ← hframe i (.inr (by omega)), hx]

theorem keeps_resync_known (t : TokenTable) : Keeps (resync t) fun m => m.program.Known t :=
  keeps_bind (fun m hm => Program.known_readCells _ 0 m.program hm) fun _ _ hm => hm

end Machine

/-! ### Tables with the same opcodes

The copies look at a table for the order of its opcodes, and at none of its tokens. -/

namespace TokenTable

variable {u : TokenTable}

theorem position?_congr (h : t.opcodes = u.opcodes) : t.position? = u.position? := by
  have position (t : TokenTable) (op : Opcode) :
      t.position? op = t.opcodes.findIdx? fun x => x == op := by
    rw [position?, opcodes, List.findIdx?_map]
    rfl
  funext op
  rw [position, position, h]

theorem opcodeOfCell?_congr (h : t.opcodes = u.opcodes) : t.opcodeOfCell? = u.opcodeOfCell? := by
  have opcodeAt (t : TokenTable) (i : Nat) : t.opcodeAt? i = t.opcodes[i]? := by
    rw [opcodeAt?, opcodes, List.getElem?_map]
  funext v
  rw [opcodeOfCell?, opcodeOfCell?, opcodeAt, opcodeAt, h]

end TokenTable

theorem Tape.storePositions_congr {u : TokenTable} (h : t.opcodes = u.opcodes)
    (xs : List Instruction) (i : Nat) : storePositions t xs i = storePositions u xs i := by
  induction xs generalizing i with
  | nil => rfl
  | cons x xs ih =>
    rw [storePositions, storePositions, position?_congr h]
    simp only [ih]

theorem Program.readCells_congr {u : TokenTable} (h : t.opcodes = u.opcodes) (vs : List Int)
    (i : Nat) : readCells t vs i = readCells u vs i := by
  induction vs generalizing i with
  | nil => rfl
  | cons v vs ih =>
    rw [readCells, readCells, opcodeOfCell?_congr h]
    simp only [ih]

namespace Machine

variable {u : TokenTable}

theorem storeProgram_congr (h : t.opcodes = u.opcodes) : storeProgram t = storeProgram u := by
  funext m
  rw [storeProgram_apply, storeProgram_apply, Tape.storeProgram, Tape.storeProgram,
    Tape.storePositions_congr h]

theorem resync_congr (h : t.opcodes = u.opcodes) : resync t = resync u := by
  have hr : readProgram t = readProgram u := by
    funext m
    rw [readProgram_apply, readProgram_apply, Program.readTape, Program.readTape,
      Program.readCells_congr h]
  rw [resync, resync, hr, storeProgram_congr h]

end Machine

end TapeDialects
