import Mathlib.Data.Nat.Find
import TapeDialects.Catalog
import TapeDialects.Proofs.Machine.Copies
import TapeDialects.Proofs.Tape.Conforms

/-!
# The copies are inverse to each other

Reading the tape and storing the program again leaves the tape as it was, and storing a program
and reading the tape again leaves the program as it was (`Machine.copies_inverse`). The first
holds because reading brings code and data into lockstep, where storing changes nothing; it fails
at a cell that is no position, and there only. The second holds because storing brings them into
lockstep as well, and reading a program that is in lockstep changes none of its opcodes, hence
none of its literals.
-/

namespace TapeDialects

open Act TokenTable

variable {t : TokenTable} {tape : Tape} {c : MachineConfig} {m : Machine}

namespace TokenTable

theorem Denotes.unique {v : Int} {op op' : Opcode} (h : t.Denotes v op) (h' : t.Denotes v op') :
    op = op' := by
  rw [← opcodeOfCell?_eq_some_iff] at h h'
  exact Option.some.inj (h.symm.trans h')

theorem exists_denotes_iff {v : Int} : (∃ op, t.Denotes v op) ↔ 0 ≤ v ∧ v < t.size := by
  constructor
  · rintro ⟨op, k, hk, rfl⟩
    obtain ⟨e, he, -⟩ := Option.map_eq_some_iff.1 (position?_eq_some_iff.1 hk)
    have : k < t.size := (List.getElem?_eq_some_iff.1 he).1
    omega
  · rintro ⟨h0, hs⟩
    have hk : v.toNat < t.entries.length := by
      have : v < (t.entries.length : Int) := hs
      omega
    have hop : t.opcodeAt? v.toNat = some t.entries[v.toNat].op := by simp [opcodeAt?, hk]
    exact ⟨_, v.toNat, position?_eq_some_iff.2 hop, (Int.toNat_of_nonneg h0).symm⟩

end TokenTable

/-! ### Cells in use -/

theorem Tape.usedBefore_le_iff {cells : Array Int} {n k : Nat} :
    usedBefore cells n ≤ k ↔ ∀ i, k ≤ i → i < n → cells.getD i 0 = 0 := by
  refine ⟨fun h i hk hi => getD_of_usedBefore_le (Nat.le_trans h hk) hi, fun h => ?_⟩
  induction n with
  | zero => exact Nat.zero_le _
  | succ n ih =>
    rw [usedBefore]
    split
    · exact ih fun i hk hi => h i hk (Nat.lt_succ_of_lt hi)
    · next hn =>
      refine Nat.not_le.1 fun hk => hn (h n hk (Nat.lt_succ_self n))

/-- The cells in use end at the first index from which on all cells are zero. -/
theorem Tape.used_le_iff {k : Nat} :
    tape.used ≤ k ↔ ∀ i v, k ≤ i → tape.get? i = some v → v = 0 := by
  rw [used, usedBefore_le_iff]
  refine forall_congr' fun i => ?_
  by_cases hi : i < tape.cells.size
  · simp [get?, hi]
  · simp [get?, hi]

/-! ### Reading a cell that is no position -/

theorem Program.readCells_error {vs : List Int} {j : Nat} {v : Int} (hj : vs[j]? = some v)
    (hv : ¬∃ op, t.Denotes v op)
    (hb : ∀ k w, k < j → vs[k]? = some w → ∃ op, t.Denotes w op) (i : Nat) (p : Program) :
    (readCells t vs i p).1 = .error (.unknownCell (i + j) v) := by
  induction vs generalizing i j p with
  | nil => simp at hj
  | cons w vs ih =>
    rw [readCells]
    cases j with
    | zero =>
      obtain rfl : w = v := by simpa using hj
      have hn : t.opcodeOfCell? w = none :=
        Option.eq_none_iff_forall_ne_some.2 fun op h => hv ⟨op, opcodeOfCell?_eq_some_iff.1 h⟩
      simp only [hn, Nat.add_zero]
    | succ j =>
      obtain ⟨op, ho⟩ := hb 0 w (Nat.succ_pos j) rfl
      rw [opcodeOfCell?_eq_some_iff.2 ho]
      rw [ih (by simpa using hj) (fun k u hk hu => hb (k + 1) u (by omega) (by simpa using hu))]
      congr 2
      omega

namespace Machine

/-- The length that reading the tape gives to the program. -/
def extent (m : Machine) : Nat := max m.program.size m.tape.used

/-- A cell that reading the tape comes to, and whose value is no position of the table. -/
structure Stray (t : TokenTable) (m : Machine) (i : Nat) (v : Int) : Prop where
  lt : i < min m.extent m.tape.size
  get?_eq : m.tape.get? i = some v
  not_position : ¬(0 ≤ v ∧ v < t.size)

theorem not_stray_iff {i : Nat} {v : Int} (hi : i < min m.extent m.tape.size)
    (hv : m.tape.get? i = some v) : ¬m.Stray t i v ↔ ∃ op, t.Denotes v op := by
  rw [exists_denotes_iff]
  exact ⟨fun h => Classical.not_not.1 fun hn => h ⟨hi, hv, hn⟩, fun h hs => hs.not_position h⟩

theorem readProgram_error {i : Nat} {v : Int} (h : m.Stray t i v)
    (hl : ∀ j w, m.Stray t j w → i ≤ j) :
    ∃ p, readProgram t m = (.error (.unknownCell i v), { m with program := p }) := by
  have hv : ¬∃ op, t.Denotes v op := exists_denotes_iff.not.2 h.not_position
  have hi := h.lt
  have he := Program.readCells_error ((Tape.getElem?_extract m.tape hi).trans h.get?_eq) hv
    (fun k w hk hw => by
      have hki : k < min m.extent m.tape.size := Nat.lt_trans hk hi
      rw [Tape.getElem?_extract m.tape hki] at hw
      exact (not_stray_iff hki hw).1 fun hs => Nat.not_le.2 hk (hl k w hs))
    0 m.program
  rw [Nat.zero_add] at he
  refine ⟨(Program.readTape t m.tape m.program).2, ?_⟩
  rw [readProgram_apply]
  exact congrArg (·, _) he

/-! ### Reading and storing -/

theorem resync_error {i : Nat} {v : Int} (h : m.Stray t i v)
    (hl : ∀ j w, m.Stray t j w → i ≤ j) :
    ∃ p, resync t m = (.error (.unknownCell i v), { m with program := p }) := by
  obtain ⟨p, hp⟩ := readProgram_error h hl
  exact ⟨p, by rw [resync, bind_apply, hp]⟩

/-- Without stray cells, reading brings code and data into lockstep, and storing does nothing. -/
theorem resync_of_not_stray (hm : m.tape.Conforms c) (h : ∀ i v, ¬m.Stray t i v) :
    ∃ p, resync t m = (.ok (), { m with program := p }) ∧ p.size = m.extent ∧
      InLockstep t { m with program := p } ∧
      ∀ i x, p[i]? = some x →
        if m.tape.size ≤ i ∨ m.program[i]?.map (·.op) = some x.op then m.program[i]? = some x
        else x.literal = none := by
  obtain ⟨p, hr, hsize, hl, hx⟩ := readProgram_ok (t := t) (m := m) fun i v hi hv => by
    have ht : i < m.tape.size := (Array.getElem?_eq_some_iff.1 hv).1
    exact (not_stray_iff (Nat.lt_min.2 ⟨hi, ht⟩) hv).1 (h i v)
  refine ⟨p, ?_, hsize, hl, hx⟩
  rw [resync, bind_apply, hr]
  exact storeProgram_eq_self hl hm.fit_cell

theorem resync_cases (hm : m.tape.Conforms c) :
    (∃ i v p, m.Stray t i v ∧ (∀ j w, m.Stray t j w → i ≤ j) ∧
      resync t m = (.error (.unknownCell i v), { m with program := p })) ∨
      (∀ i v, ¬m.Stray t i v) ∧ ∃ p, resync t m = (.ok (), { m with program := p }) := by
  by_cases h : ∃ i v, m.Stray t i v
  · classical
    obtain ⟨v, hv⟩ := Nat.find_spec h
    have hl : ∀ j w, m.Stray t j w → Nat.find h ≤ j := fun j w hw => Nat.find_min' h ⟨w, hw⟩
    obtain ⟨p, hp⟩ := resync_error hv hl
    exact .inl ⟨Nat.find h, v, p, hv, hl, hp⟩
  · have hn : ∀ i v, ¬m.Stray t i v := fun i v hs => h ⟨i, v, hs⟩
    obtain ⟨p, hp, -⟩ := resync_of_not_stray hm hn
    exact .inr ⟨hn, p, hp⟩

/-- A program read from a tape with which it is in lockstep stays as it is. -/
theorem readProgram_eq_self (hl : m.InLockstep t) : readProgram t m = (.ok (), m) := by
  have hu : m.tape.used ≤ m.program.size := Tape.used_le_iff.2 hl.zeros
  obtain ⟨p, hr, hsize, hlp, hx⟩ := readProgram_ok (t := t) (m := m) fun i v hi hv => by
    have hi : i < m.program.size := by omega
    exact ⟨m.program[i].op, hl.positions i _ v (Array.getElem?_eq_getElem hi) hv⟩
  suffices h : p = m.program by rw [hr, h]
  rw [Nat.max_eq_left hu] at hsize
  refine Array.ext_getElem? fun i => ?_
  by_cases hi : i < p.size
  · have hpi := Array.getElem?_eq_getElem hi
    have hmi := Array.getElem?_eq_getElem (hsize ▸ hi : i < m.program.size)
    have hxi := hx i p[i] hpi
    -- Both opcodes are denoted by the cell of the instruction, if the tape goes so far.
    rw [if_pos ?_] at hxi
    · rw [hxi, hpi]
    · refine or_iff_not_imp_left.2 fun ht => ?_
      have hv := Array.getElem?_eq_getElem (Nat.not_le.1 ht)
      rw [hmi, Option.map_some,
        (hl.positions i _ _ hmi hv).unique (hlp.positions i p[i] _ hpi hv)]
  · rw [Array.getElem?_eq_none (by omega), Array.getElem?_eq_none (by omega)]

/-- The copies are inverse to each other. Reading and storing again (`resync`) fails at a cell that
is no position of the table, at the first one that reading comes to, and never otherwise; it never
changes the tape. After it the program is as long as reading makes it, the cells are the positions
of its opcodes, and an instruction is the old one where its opcode is or where the tape has no cell
for it, and has no literal elsewhere. Storing a program whose positions fit, with zeros behind it,
and reading it again succeeds and leaves the program as it was. -/
theorem copies_inverse (t : TokenTable) (m : Machine) (hm : m.tape.Conforms c) :
    (∀ f m', resync t m = (.error f, m') →
      m'.tape = m.tape ∧
        ∃ i v, f = .unknownCell i v ∧ m.Stray t i v ∧ ∀ j w, m.Stray t j w → i ≤ j) ∧
    ((∃ f m', resync t m = (.error f, m')) ↔ ∃ i v, m.Stray t i v) ∧
    (∀ m', resync t m = (.ok (), m') →
      m' = { m with program := m'.program } ∧
      m'.program.size = max m.program.size m.tape.used ∧
      (∀ i < min m'.program.size m.tape.size, ∃ x k, m'.program[i]? = some x ∧
        t.position? x.op = some k ∧ m.tape.get? i = some (k : Int)) ∧
      ∀ i x, m'.program[i]? = some x →
        if m.tape.size ≤ i ∨ m.program[i]?.map (·.op) = some x.op then m.program[i]? = some x
        else x.literal = none) ∧
    (m.program.Known t → (t.size : Int) - 1 ≤ c.cellMax →
      (∀ i v, m.program.size ≤ i → m.tape.get? i = some v → v = 0) →
      ∃ m', storeProgram t m = (.ok (), m') ∧ m'.program = m.program ∧
        readProgram t m' = (.ok (), m')) := by
  refine ⟨fun f m' h => ?_, ⟨?_, ?_⟩, fun m' h => ?_, fun hk hs hz => ?_⟩
  · obtain ⟨i, v, p, hs, hl, hr⟩ | ⟨-, p, hr⟩ := resync_cases (t := t) hm
    · cases hr.symm.trans h
      exact ⟨rfl, i, v, rfl, hs, hl⟩
    · cases hr.symm.trans h
  · rintro ⟨f, m', h⟩
    obtain ⟨i, v, p, hs, -⟩ | ⟨-, p, hr⟩ := resync_cases (t := t) hm
    · exact ⟨i, v, hs⟩
    · cases hr.symm.trans h
  · rintro ⟨i, v, hs⟩
    obtain ⟨i, v, p, -, -, hr⟩ | ⟨hn, -⟩ := resync_cases (t := t) hm
    · exact ⟨_, _, hr⟩
    · exact absurd hs (hn i v)
  · obtain ⟨i, v, p, -, -, hr⟩ | ⟨hn, -⟩ := resync_cases (t := t) hm
    · cases hr.symm.trans h
    · obtain ⟨p, hr, hsize, hl, hx⟩ := resync_of_not_stray hm hn
      cases hr.symm.trans h
      refine ⟨rfl, hsize, fun i hi => ?_, hx⟩
      have hp := Array.getElem?_eq_getElem (Nat.lt_min.1 hi).1
      have hv := Array.getElem?_eq_getElem (Nat.lt_min.1 hi).2
      obtain ⟨k, hk, hkv⟩ := hl.positions i _ _ hp hv
      exact ⟨_, k, hp, hk, hv.trans (congrArg some hkv)⟩
  · have hf : ∀ k < t.size, m.tape.fit (k : Int) = .ok (k : Int) := fun k hk => by
      refine Tape.fit_of_mem ?_
      have := c.cellMin_nonpos
      rw [hm.least_eq, hm.greatest_eq]
      omega
    obtain ⟨cells, hstore, hl⟩ := storeProgram_ok hk hf hz
    exact ⟨_, hstore, rfl, readProgram_eq_self hl⟩

/-- A program of three instructions and a tape of two cells: the program survives the trip to the
tape and back, literals included; a cell that holds 9 has no opcode in a table of eight. -/
theorem copies_inverse_short_tape :
    let t := Catalog.utU.table
    let tape := Tape.ofConfig { tapeSize := 2, cellWidth := 4 }
    let p : Program := #[⟨.inc, some "a"⟩, ⟨.put, none⟩, ⟨.put, some "b"⟩]
    (∃ m', storeProgram t ⟨tape, p, 0, 0⟩ = (.ok (), m') ∧ m'.program = p ∧
      readProgram t m' = (.ok (), m')) ∧
    ∃ f m', resync t ⟨{ tape with cells := tape.cells.setIfInBounds 1 9 }, p, 0, 0⟩ =
      (.error f, m') := by
  intro t tape p
  have hc : tape.Conforms { tapeSize := 2, cellWidth := 4 } :=
    Tape.conforms_ofConfig ⟨by decide, by decide, by decide⟩
  refine ⟨(copies_inverse t ⟨tape, p, 0, 0⟩ hc).2.2.2 ?_ (by decide) ?_, ?_⟩
  · exact (by decide : ∀ x ∈ p, x.op ∈ t.opcodes)
  · intro i v hi hv
    obtain ⟨hi', -⟩ := Array.getElem?_eq_some_iff.1 hv
    simp [tape, p, Tape.ofConfig] at hi hi'
    omega
  · exact (copies_inverse t ⟨_, p, 0, 0⟩ (hc.setCell 1 (by decide))).2.1.2
      ⟨1, 9, by decide, by decide, by decide⟩

end Machine

end TapeDialects
