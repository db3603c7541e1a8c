import TapeDialects.Opcode

/-!
# Faults

What can stop an instruction. A fault by itself only names its cause;
`Location` adds where the machine stood when it happened.
-/

namespace TapeDialects

inductive Direction where
  | forward
  | backward
  deriving DecidableEq, Repr

def Direction.word : Direction → String
  | .forward => "forward"
  | .backward => "backward"

/-- Why an instruction, a hook or a stream operation could not complete. -/
inductive Fault where
  | unmatchedBracket (direction : Direction)
  /-- The data pointer, or an absolute write, left a tape of `cells` cells. -/
  | pointerOutOfRange (target : Int) (cells : Nat)
  | cellOverflow (value least greatest : Int)
  /-- The value of a cell is no position of the token table. -/
  | unknownCell (index : Nat) (value : Int)
  /-- An instruction of the program is missing from the token table. -/
  | unmapped (op : Opcode)
  | noHandler (op : Opcode)
  | inputClosed
  | stepLimit (limit : Nat)
  | stream (text : String)
  deriving DecidableEq, Repr

def Fault.message : Fault → String
  | .unmatchedBracket direction =>
    s!"unmatched bracket: {direction.word} search ran off the program"
  | .pointerOutOfRange target cells =>
    s!"data pointer moved to {target}, outside a tape of {cells} cells"
  | .cellOverflow value least greatest => s!"cell value {value} outside {least}..={greatest}"
  | .unknownCell index value => s!"cell {index} holds {value}, which names no opcode"
  | .unmapped op => s!"opcode {op} has no position in the token table"
  | .noHandler op => s!"no handler registered for opcode {op}"
  | .inputClosed => "input stream closed"
  | .stepLimit limit => s!"step limit of {limit} reached"
  | .stream text => s!"i/o error: {text}"

/-- Where the machine stood: the opcode under execution, if any, and both pointers. -/
structure Location where
  /-- The opcode under execution; none in a hook around the whole run. -/
  op : Option Opcode
  ip : Nat
  dp : Nat
  deriving DecidableEq, Repr

def Location.message (l : Location) : String :=
  match l.op with
  | some op => s!"at {op}, ip {l.ip}, dp {l.dp}"
  | none => s!"outside the program, ip {l.ip}, dp {l.dp}"

end TapeDialects
