import TapeDialects.MachineConfig

/-!
# Command lines

What the arguments of the program ask for. `Arguments.ofList?` sorts arguments into flags,
options and operands; `Command.ofList?` makes a command of them. An argument list
that asks for nothing sensible has no command.
-/

namespace TapeDialects.Cli

structure Arguments where
  flags : List String := []
  options : List (String × String) := []
  operands : List String := []
  deriving DecidableEq, Repr

namespace Arguments

/-- Whether an argument is written like a flag or an option; a single hyphen is not. -/
def isHyphenated (arg : String) : Bool := arg.startsWith "-" && arg != "-"

def splitValue (arg : String) : String × Option String :=
  let cs := arg.toList
  match cs.dropWhile (· != '=') with
  | _ :: value => (String.ofList (cs.takeWhile (· != '=')), some (String.ofList value))
  | [] => (arg, none)

def addFlag? (a : Arguments) (name : String) : Option Arguments :=
  if a.flags.contains name then none else some { a with flags := a.flags ++ [name] }

def addOption? (a : Arguments) (name value : String) : Option Arguments :=
  if (a.options.lookup name).isSome then none
  else some { a with options := a.options ++ [(name, value)] }

/-- Sorts arguments behind those in `a`, where the names of flags and of options are known. -/
def sort? (flags options : List String) (a : Arguments) : List String → Option Arguments
  | [] => some a
  | "--" :: args => some { a with operands := a.operands ++ args }
  | arg :: args =>
    if !isHyphenated arg then sort? flags options { a with operands := a.operands ++ [arg] } args
    else
      match splitValue arg with
      | (name, some value) =>
        if options.contains name then
          (a.addOption? name value).bind fun a => sort? flags options a args
        else none
      | (name, none) =>
        if flags.contains name then
          (a.addFlag? name).bind fun a => sort? flags options a args
        else if options.contains name then
          match args with
          | value :: args =>
            if isHyphenated value then none
            else (a.addOption? name value).bind fun a => sort? flags options a args
          | [] => none
        else none

def ofList? (flags options : List String) (args : List String) : Option Arguments :=
  sort? flags options {} args

/-- The value of an option, read with `read`; none of it is an error unless it is given. -/
def option? {α : Type} (a : Arguments) (name : String) (read : String → Option α) :
    Option (Option α) :=
  match a.options.lookup name with
  | none => some none
  | some value => (read value).map some

def operand? (a : Arguments) : Option String :=
  match a.operands with
  | [operand] => some operand
  | _ => none

end Arguments

/-! ### Values -/

def path? (text : String) : Option String := if text.isEmpty then none else some text

/-- A number of 64 bits in decimal digits, with an optional plus sign. -/
def count? (text : String) : Option Nat :=
  let digits :=
    match text.toList with
    | '+' :: ds => ds
    | ds => ds
  if digits.isEmpty || !digits.all (·.isDigit) then none
  else
    let n := digits.foldl (fun n c => 10 * n + (c.toNat - '0'.toNat)) 0
    if n < 1 <<< 64 then some n else none

def edge? (text : String) : Option EdgePolicy :=
  [("error", EdgePolicy.error), ("wrap", .wrap), ("grow", .grow)].lookup text

/-! ### Commands -/

/-- The dialect that is asked for. -/
inductive Choice where
  | builtIn (name : String)
  | defined (path : String)
  deriving DecidableEq, Repr

/-- The choice between a built-in dialect and a definition, exactly one of which is given. -/
def Choice.ofOptions? : Option String → Option String → Option Choice
  | some name, none => some (.builtIn name)
  | none, some path => some (.defined path)
  | _, _ => none

def Choice.paths : Choice → List String
  | .builtIn _ => []
  | .defined path => [path]

structure RunOptions where
  dialect : Choice
  /-- Whether values that do not fit a cell are reduced, even if the dialect refuses them. -/
  wrapCell : Bool
  edge : Option EdgePolicy
  tapeSize : Option Nat
  stepLimit : Option Nat
  /-- The file that holds the program; a hyphen stands for the standard input. -/
  file : String
  deriving DecidableEq, Repr

structure ConvertOptions where
  source : Choice
  target : Choice
  file : String
  deriving DecidableEq, Repr

/-- What the arguments ask for. -/
inductive Command where
  | run (options : RunOptions)
  | convert (options : ConvertOptions)
  | list
  deriving DecidableEq, Repr

namespace Command

def run? (args : List String) : Option Command := do
  let a ← Arguments.ofList? ["--wrap-cell"]
    ["--dialect", "--definition", "--edge", "--tape-size", "--step-limit"] args
  let name ← a.option? "--dialect" some
  let path ← a.option? "--definition" path?
  let edge ← a.option? "--edge" edge?
  let tapeSize ← a.option? "--tape-size" count?
  let stepLimit ← a.option? "--step-limit" count?
  let file ← a.operand?.bind path?
  let name := if path.isNone then name.or (some "brainfuck") else name
  let dialect ← Choice.ofOptions? name path
  let wrapCell := a.flags.contains "--wrap-cell"
  return .run { dialect, wrapCell, edge, tapeSize, stepLimit, file }

def convert? (args : List String) : Option Command := do
  let a ← Arguments.ofList? []
    ["--from", "--from-definition", "--to", "--to-definition"] args
  let source ← Choice.ofOptions? (← a.option? "--from" some) (← a.option? "--from-definition" path?)
  let target ← Choice.ofOptions? (← a.option? "--to" some) (← a.option? "--to-definition" path?)
  let file ← a.operand?.bind path?
  return .convert { source, target, file }

def list? (args : List String) : Option Command := do
  let a ← Arguments.ofList? [] [] args
  if a.operands.isEmpty then some .list else none

/-- The command that a list of arguments asks for. -/
def ofList? : List String → Option Command
  | "run" :: args => run? args
  | "convert" :: args => convert? args
  | "list" :: args => list? args
  | _ => none

def paths : Command → List String
  | .run o => o.dialect.paths ++ [o.file]
  | .convert o => o.source.paths ++ o.target.paths ++ [o.file]
  | .list => []

def readsStdin : Command → Bool
  | .run _ => true
  | .convert o => o.file == "-"
  | .list => false

end Command

end TapeDialects.Cli
