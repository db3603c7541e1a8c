import TapeDialects.Program
import TapeDialects.Stream.Basic
import TapeDialects.Tape.Basic

/-!
# Machines and sessions

A machine is a tape, a program and the two counters of a run. A session is a
machine with the stream that it reads and writes. Actions on a part act on the
whole through `onTape`, `onMachine` and `onStream`.
-/

namespace TapeDialects

structure Machine where
  tape : Tape
  program : Program
  ip : Nat
  /-- The number of instructions executed since the program was loaded. -/
  steps : Nat
  deriving DecidableEq, Repr

namespace Machine

def ofConfig (c : MachineConfig) : Machine := ⟨Tape.ofConfig c, #[], 0, 0⟩

/-- The machine at the start of a program, with a tape of `size` zeros. -/
def load (m : Machine) (size : Nat) (p : Program) : Machine := ⟨m.tape.reset size, p, 0, 0⟩

def current? (m : Machine) : Option Instruction := m.program[m.ip]?

def isHalted (m : Machine) : Bool := m.program.size ≤ m.ip

theorem isHalted_iff (m : Machine) : m.isHalted = true ↔ m.current? = none := by
  simp [isHalted, current?]

end Machine

/-- A machine with the stream that it reads and writes. -/
structure Session where
  machine : Machine
  stream : Stream
  deriving DecidableEq, Repr

variable {α : Type}

def onTape (x : Act Tape α) : Act Machine α := fun ⟨tape, program, ip, steps⟩ =>
  match x tape with
  | (r, tape) => (r, ⟨tape, program, ip, steps⟩)

def onMachine (x : Act Machine α) : Act Session α := fun ⟨machine, stream⟩ =>
  match x machine with
  | (r, machine) => (r, ⟨machine, stream⟩)

def onStream (x : Act Stream α) : Act Session α := fun ⟨machine, stream⟩ =>
  match x stream with
  | (r, stream) => (r, ⟨machine, stream⟩)

theorem onTape_apply (x : Act Tape α) (m : Machine) :
    onTape x m = ((x m.tape).1, { m with tape := (x m.tape).2 }) := rfl

theorem onMachine_apply (x : Act Machine α) (s : Session) :
    onMachine x s = ((x s.machine).1, { s with machine := (x s.machine).2 }) := rfl

theorem onStream_apply (x : Act Stream α) (s : Session) :
    onStream x s = ((x s.stream).1, { s with stream := (x s.stream).2 }) := rfl

theorem onTape_eq_iff {x : Act Tape α} {m m' : Machine} {r : Except Fault α} :
    onTape x m = (r, m') ↔ ∃ tape, x m.tape = (r, tape) ∧ m' = { m with tape := tape } := by
  rw [onTape_apply]
  constructor
  · intro h
    cases h
    exact ⟨_, rfl, rfl⟩
  · rintro ⟨tape, h, rfl⟩
    rw [h]

theorem onMachine_eq_iff {x : Act Machine α} {s s' : Session} {r : Except Fault α} :
    onMachine x s = (r, s') ↔
      ∃ machine, x s.machine = (r, machine) ∧ s' = { s with machine := machine } := by
  rw [onMachine_apply]
  constructor
  · intro h
    cases h
    exact ⟨_, rfl, rfl⟩
  · rintro ⟨machine, h, rfl⟩
    rw [h]

theorem onStream_eq_iff {x : Act Stream α} {s s' : Session} {r : Except Fault α} :
    onStream x s = (r, s') ↔
      ∃ stream, x s.stream = (r, stream) ∧ s' = { s with stream := stream } := by
  rw [onStream_apply]
  constructor
  · intro h
    cases h
    exact ⟨_, rfl, rfl⟩
  · rintro ⟨stream, h, rfl⟩
    rw [h]

end TapeDialects
