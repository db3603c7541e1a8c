import TapeDialects.Catalog
import TapeDialects.Cli.Command
import TapeDialects.Definition
import TapeDialects.Dialect.Run

/-!
# Commands at work

What a command does: `Command.task` reads what it needs and ends with an answer
or with a session that is yet to be run; `Task.complete` runs the session.
-/

namespace TapeDialects.Cli

structure Environment where
  read : String → Except ReadFailure (List UInt8)
  stdin : List UInt8

namespace Environment

def decode (bs : List UInt8) : Except Error String :=
  match String.fromUTF8? bs.toByteArray with
  | some text => .ok text
  | none => .error (.unreadable .notText)

def readText (env : Environment) (path : String) : Except Error String :=
  match env.read path with
  | .ok bs => decode bs
  | .error failure => .error (.unreadable failure)

def readSource (env : Environment) (file : String) : Except Error String :=
  if file = "-" then decode env.stdin else env.readText file

def loadDialect (env : Environment) (path : String) : Except Error Dialect := do
  let text ← env.readText path
  Definition.load path text

def dialect (env : Environment) : Choice → Except Error Dialect
  | .builtIn name => Catalog.dialect name
  | .defined path => env.loadDialect path

end Environment

structure Answer where
  code : UInt8
  stdout : List UInt8 := []
  stderr : String := ""
  deriving DecidableEq, Repr

namespace Answer

def usage : Answer := { code := 2 }

def print (text : String) : Answer := { code := 0, stdout := Stream.textBytes (text ++ "\n") }

/-- The answer to a failure, after some output. A malformed definition is reported on an open line,
behind which its reader's diagnosis would stand. -/
def failure (e : Error) (stdout : List UInt8) : Answer :=
  { code := 1
    stdout
    stderr :=
      match e with
      | .malformedDefinition _ => s!"error: {e.message}"
      | _ => s!"error: {e.message}\n" }

end Answer

/-- A command after everything it needs has been read. -/
inductive Task where
  | done (answer : Answer)
  /-- The session has loaded its program and is yet to be run. -/
  | run (d : Dialect) (s : Session)

namespace RunOptions

def override (o : RunOptions) (c : MachineConfig) : MachineConfig :=
  { c with
    wrapCell := c.wrapCell || o.wrapCell
    edge := o.edge.getD c.edge
    tapeSize := o.tapeSize.getD c.tapeSize
    stepLimit := o.stepLimit.or c.stepLimit }

def select (o : RunOptions) (env : Environment) : Except Error Dialect := do
  let d ← env.dialect o.dialect
  d.withConfig (o.override d.config)

/-- The session that runs a program, which reads the standard input unless it came from there. -/
def session (o : RunOptions) (env : Environment) : Except Error (Dialect × Session) := do
  let d ← o.select env
  let source ← env.readSource o.file
  let p ← d.compile source
  let input := if o.file = "-" then [] else env.stdin
  return (d, ⟨d.load p d.newMachine, Stream.ofBytes input⟩)

end RunOptions

def ConvertOptions.result (o : ConvertOptions) (env : Environment) : Except Error String := do
  let source ← env.dialect o.source
  let target ← env.dialect o.target
  let text ← env.readSource o.file
  source.toSetting.convert target.toSetting text

/-- What a command does with what it can read. -/
def Command.task (env : Environment) : Command → Task
  | .run o =>
    match o.session env with
    | .ok (d, s) => .run d s
    | .error e => .done (Answer.failure e [])
  | .convert o =>
    match o.result env with
    | .ok text => .done (Answer.print text)
    | .error e => .done (Answer.failure e [])
  | .list => .done (Answer.print ("\n".intercalate Catalog.names))

namespace Task

def answerOf? : Option (Except Error Nat) × Session → Option Answer
  | (none, _) => none
  | (some (.ok _), s) => some { code := 0, stdout := s.stream.sink.written.toList }
  | (some (.error e), s) => some (Answer.failure e s.stream.sink.written.toList)

def complete (fuel : Nat) : Task → Option Answer
  | .done answer => some answer
  | .run d s => answerOf? (d.runLoaded fuel s)

end Task

/-- The answer to a list of arguments, where a run may try at most `fuel` steps. -/
def execute (fuel : Nat) (env : Environment) (args : List String) : Option Answer :=
  match Command.ofList? args with
  | none => some Answer.usage
  | some command => (command.task env).complete fuel

end TapeDialects.Cli
