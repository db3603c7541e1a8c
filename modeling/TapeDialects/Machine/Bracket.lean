import TapeDialects.Machine.Session

/-!
# Brackets

A bracket finds its partner by walking through the program and counting the
brackets that open and close on the way. Nothing is computed in advance, so
programs that change themselves find the partners of the moment.
-/

namespace TapeDialects

namespace Program

/-- The index of the `cls` that closes a loop, from index `i` on and `depth` loops further in. -/
def closerFrom? (p : Program) (depth : Nat) (i : Nat) : Option Nat :=
  if h : i < p.size then
    match p[i].op with
    | .opn => p.closerFrom? (depth + 1) (i + 1)
    | .cls =>
      match depth with
      | 0 => some i
      | depth + 1 => p.closerFrom? depth (i + 1)
    | _ => p.closerFrom? depth (i + 1)
  else none
termination_by p.size - i

/-- The index of the `opn` that opens a loop, before index `i` and `depth` loops further in. -/
def openerBefore? (p : Program) (depth : Nat) : (i : Nat) → Option Nat
  | 0 => none
  | i + 1 =>
    match (p[i]?.map Instruction.op : Option Opcode) with
    | some .cls => p.openerBefore? (depth + 1) i
    | some .opn =>
      match depth with
      | 0 => some i
      | depth + 1 => p.openerBefore? depth i
    | _ => p.openerBefore? depth i

end Program

namespace Machine

def jumpForward : Act Machine Unit := fun m =>
  match m.program.closerFrom? 0 (m.ip + 1) with
  | some i => (.ok (), { m with ip := i })
  | none => (.error (.unmatchedBracket .forward), m)

def jumpBackward : Act Machine Unit := fun m =>
  match m.program.openerBefore? 0 (min m.ip m.program.size) with
  | some i => (.ok (), { m with ip := i })
  | none => (.error (.unmatchedBracket .backward), m)

end Machine

end TapeDialects
