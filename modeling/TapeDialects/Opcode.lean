/-!
# Opcodes

The instructions of the tape machine. Eight of them form the core language;
fifteen more have a standard effect and are available to any dialect that gives
them a token; a dialect may add further ones under a name of its own.

An opcode is written by its short name. `Opcode.ofName?` reads these names back,
except for the names of custom opcodes, which only the dialect that declares
them knows.
-/

namespace TapeDialects

/-- An instruction of the tape machine, without operands. -/
inductive Opcode where
  | nxt
  | prv
  | inc
  | dec
  | put
  | get
  | opn
  | cls
  | nop
  | or
  | and
  | not
  | xor
  | shl
  | shr
  | njm
  | pjm
  | zro
  | hom
  | buf
  | endBuf
  | com
  | endCom
  /-- An instruction that only the declaring dialect knows. -/
  | custom (name : String)
  deriving DecidableEq, Repr, Inhabited

namespace Opcode

/-- The core language, in the order in which core token lists are given. -/
def core : List Opcode := [nxt, prv, inc, dec, put, get, opn, cls]

/-- The opcodes beyond the core that have a standard effect. -/
def extended : List Opcode :=
  [nop, or, and, not, xor, shl, shr, njm, pjm, zro, hom, buf, endBuf, com, endCom]

def name : Opcode → String
  | nxt => "nxt"
  | prv => "prv"
  | inc => "inc"
  | dec => "dec"
  | put => "put"
  | get => "get"
  | opn => "opn"
  | cls => "cls"
  | nop => "nop"
  | or => "or"
  | and => "and"
  | not => "not"
  | xor => "xor"
  | shl => "shl"
  | shr => "shr"
  | njm => "njm"
  | pjm => "pjm"
  | zro => "zro"
  | hom => "hom"
  | buf => "buf"
  | endBuf => "end_buf"
  | com => "com"
  | endCom => "end_com"
  | custom text => text

instance : ToString Opcode := ⟨name⟩

/-- The core or extended opcode of the given name. -/
def ofName? (text : String) : Option Opcode :=
  (core ++ extended).find? fun op => op.name == text

def isCore (op : Opcode) : Bool := core.contains op

theorem isCore_iff (op : Opcode) : op.isCore = true ↔ op ∈ core := by
  simp [isCore]

theorem ofName?_name (op : Opcode) (h : op ∈ core ++ extended) :
    ofName? op.name = some op := by
  revert op
  decide

end Opcode

end TapeDialects
