import TapeDialects.Machine.Session

/-!
# Code and data in lockstep

A self-modifying dialect keeps its program on the tape: a cell holds the position
of the opcode of the instruction with the same index. `storeProgram` copies the
program to the tape, and `readProgram` copies the tape back to the program.
Neither goes beyond the end of the tape.
-/

namespace TapeDialects

namespace TokenTable

def opcodeOfCell? (t : TokenTable) (v : Int) : Option Opcode :=
  if 0 ≤ v then t.opcodeAt? v.toNat else none

end TokenTable

namespace Tape

def storePositions (t : TokenTable) : List Instruction → (i : Nat) → Act Tape Unit
  | [], _ => pure ()
  | x :: xs, i =>
    match t.position? x.op with
    | none => Act.fail (.unmapped x.op)
    | some position => do
      setAt i position
      storePositions t xs (i + 1)

/-- Stores the program on the tape, as far as the tape goes. -/
def storeProgram (t : TokenTable) (p : Program) : Act Tape Unit := fun tape =>
  storePositions t (p.toList.take tape.cells.size) 0 tape

/-- One more than the index of the last cell before index `i` that is not zero. -/
def usedBefore (cells : Array Int) : (i : Nat) → Nat
  | 0 => 0
  | i + 1 => if cells.getD i 0 = 0 then usedBefore cells i else i + 1

def used (t : Tape) : Nat := usedBefore t.cells t.cells.size

end Tape

namespace Program

/-- Gives the instruction at an index an opcode; one that has it already keeps its literal. -/
def putOpcode (p : Program) (i : Nat) (op : Opcode) : Program :=
  match p[i]? with
  | none => p.push { op := op }
  | some x => if x.op = op then p else p.setIfInBounds i { op := op }

def readCells (t : TokenTable) : List Int → (i : Nat) → Act Program Unit
  | [], _ => pure ()
  | v :: vs, i => fun p =>
    match t.opcodeOfCell? v with
    | none => (.error (.unknownCell i v), p)
    | some op => readCells t vs (i + 1) (p.putOpcode i op)

/-- Rebuilds the program from the tape: the whole program, and every cell in use behind it. -/
def readTape (t : TokenTable) (tape : Tape) : Act Program Unit := fun p =>
  let stop := min (max p.size tape.used) tape.cells.size
  readCells t (tape.cells.extract 0 stop).toList 0 p

end Program

namespace Machine

def storeProgram (t : TokenTable) : Act Machine Unit := fun ⟨tape, program, ip, steps⟩ =>
  match Tape.storeProgram t program tape with
  | (r, tape) => (r, ⟨tape, program, ip, steps⟩)

def readProgram (t : TokenTable) : Act Machine Unit := fun ⟨tape, program, ip, steps⟩ =>
  match Program.readTape t tape program with
  | (r, program) => (r, ⟨tape, program, ip, steps⟩)

/-- Takes changes of the tape into the program, and stores the result on the tape. -/
def resync (t : TokenTable) : Act Machine Unit := do
  readProgram t
  storeProgram t

end Machine

end TapeDialects
