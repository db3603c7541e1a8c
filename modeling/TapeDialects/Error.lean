import TapeDialects.Fault
import TapeDialects.Text.Quoted

/-!
# Errors

Everything that can go wrong before, around and during a run, one constructor
per cause. The wording is in `Error.message` alone.
-/

namespace TapeDialects

inductive ConfigFlaw where
  | emptyTape
  | cellWidth (width : Nat)
  | noOpcodes (dialect : String)
  | regionsNeedScan
  deriving DecidableEq, Repr

def ConfigFlaw.message : ConfigFlaw → String
  | .emptyTape => "tape size must be positive"
  | .cellWidth width => s!"cell width must be between 1 and 32 bits, got {width}"
  | .noOpcodes dialect => s!"dialect {dialect} has no opcodes"
  | .regionsNeedScan => "literal and comment regions need scan mode"

/-- Why a file could not be read as text. -/
inductive ReadFailure where
  | missing
  | folder
  /-- The path goes on behind a file. -/
  | notFolder
  | nameTooLong
  | nulInPath
  | notText
  /-- Any other reason, in the words of the file system. -/
  | other (text : String)
  deriving DecidableEq, Repr

def ReadFailure.message : ReadFailure → String
  | .missing => "No such file or directory (os error 2)"
  | .folder => "Is a directory (os error 21)"
  | .notFolder => "Not a directory (os error 20)"
  | .nameTooLong => "File name too long (os error 36)"
  | .nulInPath => "file name contained an unexpected NUL byte"
  | .notText => "stream did not contain valid UTF-8"
  | .other text => text

/-- Why a dialect could not be built or used, or why a run ended early. -/
inductive Error where
  | unterminatedComment (offset : Nat)
  | unknownToken (token : String)
  | unknownOpcode (op : Opcode)
  | unknownOpcodeName (name : String)
  | aliasOutOfRange (op : Opcode) (index count : Nat)
  | tokenCountMismatch (expected found : Nat)
  | emptyToken (op : Opcode)
  | noTokens (op : Opcode)
  | duplicateOpcode (op : Opcode)
  | missingHandler (op : Opcode)
  | config (flaw : ConfigFlaw)
  | unknownDialect (name : String)
  /-- The file at `path` is not written in the format of dialect definitions. -/
  | malformedDefinition (path : String)
  /-- The definition at `path` was read, but describes no dialect. -/
  | rejectedDefinition (path : String) (reason : Error)
  | unreadable (failure : ReadFailure)
  | runtime (fault : Fault) (location : Location)
  deriving DecidableEq, Repr

/-- The text of an error. A malformed definition is reported without the reader's own diagnosis. -/
def Error.message : Error → String
  | .unterminatedComment offset => s!"comment opened at byte {offset} is never closed"
  | .unknownToken token => s!"unknown token {Text.quoted token}"
  | .unknownOpcode op => s!"opcode {op} is not in the token table"
  | .unknownOpcodeName name => s!"unknown opcode name {Text.quoted name}"
  | .aliasOutOfRange op index count =>
    s!"opcode {op} has {count} tokens, no alias at index {index}"
  | .tokenCountMismatch expected found =>
    s!"token list has {found} entries but the table has {expected} opcodes"
  | .emptyToken op => s!"opcode {op} has an empty token"
  | .noTokens op => s!"opcode {op} has no tokens"
  | .duplicateOpcode op => s!"opcode {op} is declared twice"
  | .missingHandler op => s!"opcode {op} needs a handler"
  | .config flaw => s!"invalid configuration: {flaw.message}"
  | .unknownDialect name => s!"unknown dialect {Text.quoted name}"
  | .malformedDefinition path => s!"invalid dialect definition {path}: "
  | .rejectedDefinition path reason => s!"invalid dialect definition {path}: {reason.message}"
  | .unreadable failure => failure.message
  | .runtime fault location => s!"{fault.message} ({location.message})"

end TapeDialects
