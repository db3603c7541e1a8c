import TapeDialects.Machine.Bracket
import TapeDialects.Machine.Lockstep
import TapeDialects.Tape.Bitwise

/-!
# Effects

What the instructions of the core and the special instructions of some dialects
do to a session: reading and writing cells, and the texts that a few dialects
put on the tape or take from it.
-/

namespace TapeDialects

namespace Machine

/-- Writes the literal of the current instruction to the tape, one code point per cell. -/
def storeLiteral : Act Machine Unit := fun m =>
  match m.current?.bind (·.literal) with
  | none => (.ok (), m)
  | some text => onTape (Tape.storeChars text.toList) m

def greeting : String := "Hello, world!"

/-- Puts the greeting at the start of the tape, and lets a program step past it first. -/
def greet : Act Machine Unit := do
  onTape (Tape.storeCharsAt 0 greeting.toList)
  modify fun m =>
    if m.program.isEmpty then m
    else { m with program := Array.replicate greeting.length { op := .nxt } ++ m.program }

end Machine

namespace Session

def cell (s : Session) : Int := s.machine.tape.get

def put (mode : OutputMode) : Act Session Unit := fun s =>
  onStream (Stream.writeValue s.cell mode) s

def get : Act Session Unit := do
  let v ← onStream Stream.readChar
  onMachine (onTape (Tape.set v))

def advance : Act Session Unit := onMachine (onTape (Tape.shift 1))

def putAdvance (mode : OutputMode) : Act Session Unit := do
  put mode
  advance

def getAdvance : Act Session Unit := do
  get
  advance

def drainCells (mode : OutputMode) : (n : Nat) → Act Session Unit
  | 0 => pure ()
  | n + 1 => fun s =>
    if s.cell = 0 then (.ok (), s)
    else
      (do
        put mode
        advance
        drainCells mode n : Act Session Unit) s

/-- Writes cells from the pointer on, up to a zero or as many as the tape has. -/
def drain (mode : OutputMode) : Act Session Unit := fun s =>
  drainCells mode s.machine.tape.cells.size s

/-- Writes the token of the opcode whose position is the current cell, and a separator. -/
def putToken (t : TokenTable) (separator : String) : Act Session Unit := fun s =>
  match (t.opcodeOfCell? s.cell).bind fun op => (t.tokenOf op 0).toOption with
  | none => (.error (.unknownCell s.machine.tape.ptr s.cell), s)
  | some token =>
    (do
      onStream (Stream.writeText token)
      onStream (Stream.writeText separator) : Act Session Unit) s

end Session

end TapeDialects
