import TapeDialects.Opcode

/-!
# Surfaces

How the tokens of a dialect sit in a source text: found anywhere in it, or cut
apart by separators; and which opcodes enclose text that is not code.
-/

namespace TapeDialects

/-- How tokens are found in a source text. -/
inductive LexMode where
  /-- Tokens are searched for, and other text is passed over. -/
  | scan
  /-- The text is cut at separators, and each piece is a token or nothing. -/
  | delimited
  deriving DecidableEq, Repr, Inhabited

/-- What the text of a region is. -/
inductive RegionKind where
  /-- The text belongs to the instruction that opens the region. -/
  | literal
  /-- The text is ignored, with the tokens around it. -/
  | comment
  deriving DecidableEq, Repr

/-- A stretch of text between the tokens of two opcodes. -/
structure Region where
  opener : Opcode
  closer : Opcode
  kind : RegionKind
  deriving DecidableEq, Repr

structure Surface where
  /-- The texts that may stand between tokens; the first is used for writing. -/
  separators : List String := []
  mode : LexMode := .scan
  /-- The regions; the first one that an opcode opens is the one that counts. -/
  regions : List Region := []
  deriving DecidableEq, Repr, Inhabited

namespace Surface

def separator (s : Surface) : String := s.separators.headD ""

def regionOpenedBy (s : Surface) (op : Opcode) : Option Region :=
  s.regions.find? fun r => r.opener == op

/-- The literal region that an opcode opens when a program is written. -/
def literalOpenedBy (s : Surface) (op : Opcode) : Option Region :=
  s.regions.find? fun r => r.opener == op && r.kind == .literal

end Surface

end TapeDialects
