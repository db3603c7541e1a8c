import TapeDialects.Dialect.Setting
import TapeDialects.Machine.Effect

/-!
# Handlers

What a dialect can bind to an opcode, or run around the steps of a program. The
library has a fixed set of handlers; `Handler.custom` adds effects from outside.
A handler runs with the instruction pointer on its own instruction, and the
engine moves the pointer on afterwards.
-/

namespace TapeDialects

/-- An effect that a dialect can bind to an opcode or use as a hook. -/
inductive Handler where
  | nop
  | or
  | and
  | xor
  | not
  | shl
  | shr
  | njm
  | pjm
  | zro
  | hom
  | buf
  | putAdvance
  | getAdvance
  | putToken
  | jumpForward
  | jumpBackward
  | storeProgram
  | resync
  | greet
  | drain
  /-- An effect from outside the library. -/
  | custom (effect : Setting → Act Session Unit)
  deriving Inhabited

namespace Handler

def ofTape (x : Act Tape Unit) : Act Session Unit := onMachine (onTape x)

def run (h : Handler) (d : Setting) : Act Session Unit :=
  match h with
  | nop => pure ()
  | or => ofTape (Tape.combine Tape.bitOr)
  | and => ofTape (Tape.combine Tape.bitAnd)
  | xor => ofTape (Tape.combine Tape.bitXor)
  | not => ofTape (Tape.complement d.config.signedCell)
  | shl => ofTape Tape.shiftLeft
  | shr => ofTape Tape.shiftRight
  | njm => ofTape Tape.jumpRight
  | pjm => ofTape Tape.jumpLeft
  | zro => ofTape (Tape.set 0)
  | hom => ofTape (Tape.seek 0)
  | buf => onMachine Machine.storeLiteral
  | putAdvance => Session.putAdvance d.config.output
  | getAdvance => Session.getAdvance
  | putToken => Session.putToken d.table d.surface.separator
  | jumpForward => onMachine Machine.jumpForward
  | jumpBackward => onMachine Machine.jumpBackward
  | storeProgram => onMachine (Machine.storeProgram d.table)
  | resync => onMachine (Machine.resync d.table)
  | greet => onMachine Machine.greet
  | drain => Session.drain d.config.output
  | custom effect => effect d

/-- The handler that an extended opcode has unless a dialect binds another. -/
def standard? : Opcode → Option Handler
  | .nop | .endBuf | .com | .endCom => some nop
  | .or => some or
  | .and => some and
  | .xor => some xor
  | .not => some not
  | .shl => some shl
  | .shr => some shr
  | .njm => some njm
  | .pjm => some pjm
  | .zro => some zro
  | .hom => some hom
  | .buf => some buf
  | _ => none

theorem isSome_standard?_iff (op : Opcode) :
    (standard? op).isSome = true ↔ op ∈ Opcode.extended := by
  cases op <;> simp [standard?, Opcode.extended]

end Handler

/-- Effects around the steps of a program. -/
structure Hooks where
  preRun : Option Handler := none
  step : Option Handler := none
  postRun : Option Handler := none
  deriving Inhabited

end TapeDialects
