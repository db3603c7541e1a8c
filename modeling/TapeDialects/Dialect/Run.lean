import TapeDialects.Dialect.Basic

/-!
# Runs

How a dialect executes a program. An instruction runs through the handler that
the dialect binds to it or through its core effect; then the instruction pointer
moves on and the step hook runs. A run executes instructions until the
pointer has left the program, between the two hooks around it.

A run need not end. `Dialect.steps` and what is built on it take the number of
steps they may try and answer `none` when that was not enough; more steps never
change another answer.
-/

namespace TapeDialects

/-- Parts of a run: actions on a session that may stop with an error. -/
abbrev RunM := ExceptT Error (StateM Session)

/-- An action whose fault is located at an instruction, with the data pointer where the action has
left it. -/
def Act.locatedAt {α : Type} (op : Opcode) (ip : Nat) (x : Act Session α) : RunM α := fun s =>
  match x s with
  | (.ok a, s) => (.ok a, s)
  | (.error f, s) => (.error (.runtime f ⟨some op, ip, s.machine.tape.ptr⟩), s)

def Act.locatedOutside {α : Type} (x : Act Session α) : RunM α := fun s =>
  match x s with
  | (.ok a, s) => (.ok a, s)
  | (.error f, s) => (.error (.runtime f ⟨none, s.machine.ip, s.machine.tape.ptr⟩), s)

namespace Session

def openLoop : Act Session Unit := fun s =>
  if s.cell = 0 then onMachine Machine.jumpForward s else (.ok (), s)

def closeLoop : Act Session Unit := fun s =>
  if s.cell = 0 then (.ok (), s) else onMachine Machine.jumpBackward s

/-- The effect of a core opcode; other opcodes have none. -/
def coreEffect (mode : OutputMode) : Opcode → Act Session Unit
  | .nxt => onMachine (onTape (Tape.shift 1))
  | .prv => onMachine (onTape (Tape.shift (-1)))
  | .inc => onMachine (onTape (Tape.add 1))
  | .dec => onMachine (onTape (Tape.add (-1)))
  | .put => put mode
  | .get => get
  | .opn => openLoop
  | .cls => closeLoop
  | op => Act.fail (.noHandler op)

def countStep : Session → Session
  | ⟨⟨tape, program, ip, steps⟩, stream⟩ => ⟨⟨tape, program, ip + 1, steps + 1⟩, stream⟩

end Session

namespace Dialect

def effect (d : Dialect) (op : Opcode) : Act Session Unit :=
  match d.handler? op with
  | some h => h.run d.toSetting
  | none => Session.coreEffect d.config.output op

def runHook (d : Dialect) : Option Handler → Act Session Unit
  | some h => h.run d.toSetting
  | none => pure ()

def reachedLimit? (d : Dialect) (steps : Nat) : Option Nat :=
  d.config.stepLimit.filter (· ≤ steps)

def execute (d : Dialect) (op : Opcode) (ip : Nat) : RunM Unit := do
  Act.locatedAt op ip (d.effect op)
  modify Session.countStep
  Act.locatedAt op ip (d.runHook d.hooks.step)

/-- Executes the current instruction; false if the program has ended. The end of the program comes
before the step limit, so a program may take exactly as many steps as it is given. -/
def step (d : Dialect) : RunM Bool := fun s =>
  match s.machine.current? with
  | none => (.ok false, s)
  | some i =>
    match d.reachedLimit? s.machine.steps with
    | some limit =>
      (.error (.runtime (.stepLimit limit) ⟨some i.op, s.machine.ip, s.machine.tape.ptr⟩), s)
    | none =>
      match d.execute i.op s.machine.ip s with
      | (.ok (), s) => (.ok true, s)
      | (.error e, s) => (.error e, s)

def begin (d : Dialect) : RunM Unit := Act.locatedOutside (d.runHook d.hooks.preRun)

/-- Runs the hook after the last instruction and flushes the output. -/
def finish (d : Dialect) : RunM Unit := do
  Act.locatedOutside (d.runHook d.hooks.postRun)
  Act.locatedOutside (onStream Stream.flush)

/-- Executes instructions until the program has ended, trying at most `fuel` steps. -/
def steps (d : Dialect) : (fuel : Nat) → Session → Option (Except Error Unit) × Session
  | 0, s => (none, s)
  | fuel + 1, s =>
    match d.step s with
    | (.error e, s) => (some (.error e), s)
    | (.ok false, s) => (some (.ok ()), s)
    | (.ok true, s) => d.steps fuel s

def conclude (d : Dialect) :
    Option (Except Error Unit) × Session → Option (Except Error Nat) × Session
  | (none, s) => (none, s)
  | (some (.error e), s) => (some (.error e), s)
  | (some (.ok ()), s) =>
    match d.finish s with
    | (.error e, s) => (some (.error e), s)
    | (.ok (), s) => (some (.ok s.machine.steps), s)

def runLoaded (d : Dialect) (fuel : Nat) (s : Session) : Option (Except Error Nat) × Session :=
  match d.begin s with
  | (.error e, s) => (some (.error e), s)
  | (.ok (), s) => d.conclude (d.steps fuel s)

def load (d : Dialect) (p : Program) (m : Machine) : Machine := m.load d.config.tapeSize p

/-- Runs a program on a machine, trying at most `fuel` steps. -/
def run (d : Dialect) (fuel : Nat) (p : Program) (m : Machine) (s : Stream) :
    Option (Except Error Nat) × Session :=
  d.runLoaded fuel ⟨d.load p m, s⟩

def runSource (d : Dialect) (fuel : Nat) (source : String) (m : Machine) (s : Stream) :
    Option (Except Error Nat) × Session :=
  match d.compile source with
  | .error e => (some (.error e), ⟨m, s⟩)
  | .ok p => d.run fuel p m s

def newMachine (d : Dialect) : Machine := Machine.ofConfig d.config

/-- More steps do not change what some steps have answered. -/
theorem steps_mono {d : Dialect} {m n : Nat} {s s' : Session} {r : Except Error Unit}
    (h : d.steps m s = (some r, s')) (hle : m ≤ n) : d.steps n s = (some r, s') := by
  induction m generalizing n s with
  | zero => simp [steps] at h
  | succ m ih =>
    cases n with
    | zero => omega
    | succ n =>
      simp only [steps] at h ⊢
      split at h
      · exact h
      · exact h
      · exact ih h (by omega)

end Dialect

end TapeDialects
