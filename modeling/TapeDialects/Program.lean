import TapeDialects.Source.Lexing

/-!
# Programs

A program is an array of instructions. It is read from the lexemes of a source
text, and written as source text again: each instruction by its token, one
with a literal by the whole region, and the separator of the surface in between.
-/

namespace TapeDialects

/-- An opcode, with the text of the literal region that it opened. -/
structure Instruction where
  op : Opcode
  literal : Option String := none
  deriving DecidableEq, Repr, Inhabited

abbrev Program := Array Instruction

namespace Program

def ofOpcodes (ops : List Opcode) : Program := (ops.map fun op => { op := op }).toArray

def opcodes (p : Program) : List Opcode := p.toList.map (·.op)

end Program

namespace TokenTable

def instructionOf (t : TokenTable) (l : Lexeme) : Except Error Instruction :=
  match t.opcodeOf l.text with
  | .ok op => .ok ⟨op, l.literal⟩
  | .error e => .error e

def programOf (t : TokenTable) (ls : List Lexeme) : Except Error Program :=
  match ls.mapM t.instructionOf with
  | .ok is => .ok is.toArray
  | .error e => .error e

def writtenTokens (t : TokenTable) (p : Program) : Except Error (List String) :=
  p.toList.mapM fun i => t.tokenOf i.op 0

/-- An instruction as source text. -/
def writeInstruction (t : TokenTable) (s : Surface) (i : Instruction) : Except Error String := do
  let token ← t.tokenOf i.op 0
  match s.literalOpenedBy i.op, i.literal with
  | some region, some literal =>
    let close ← t.tokenOf region.closer 0
    return token ++ literal ++ close
  | _, _ => return token

def writeProgram (t : TokenTable) (s : Surface) (p : Program) : Except Error String :=
  match p.toList.mapM (t.writeInstruction s) with
  | .ok parts => .ok (s.separator.intercalate parts)
  | .error e => .error e

end TokenTable

end TapeDialects
