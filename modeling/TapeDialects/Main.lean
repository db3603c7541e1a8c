import TapeDialects.Cli.Execute

/-!
# The program

Reads what a command may need, runs it in slices, and writes the output of each
slice before the next one starts.
-/

namespace TapeDialects.Cli

def readFile (path : String) : IO (Except ReadFailure (List UInt8)) := do
  try
    let bytes ← IO.FS.readBinFile path
    return .ok bytes.toList
  catch
    | .noFileOrDirectory .. => return .error .missing
    | .inappropriateType _ code _ =>
      return .error (if min code (0 - code) = 20 then .notFolder else .folder)
    | .invalidArgument _ code _ =>
      return .error (if min code (0 - code) = 36 then .nameTooLong else .other "Invalid argument")
    | e => return .error (.other (toString e))

/-- Everything that a command can read. -/
def readEnvironment (command : Command) : IO Environment := do
  let files ← command.paths.mapM fun path => return (path, ← readFile path)
  let stdin ← if command.readsStdin then (← IO.getStdin).readBinToEnd else pure ByteArray.empty
  return { read := fun path => (files.lookup path).getD (.error .missing), stdin := stdin.toList }

def writeOut (bs : List UInt8) : IO Unit := do
  let out ← IO.getStdout
  out.write bs.toByteArray
  out.flush

def report (a : Answer) : IO UInt32 := do
  writeOut a.stdout
  (← IO.getStderr).putStr a.stderr
  return a.code.toUInt32

/-- The number of steps between two writes to the standard output. -/
def slice : Nat := 65536

def takeOutput (s : Session) : List UInt8 × Session :=
  (s.stream.sink.written.toList,
    { s with stream := { s.stream with sink := { s.stream.sink with written := #[] } } })

/-- Runs a session that has begun, slice by slice. -/
partial def drive (d : Dialect) (s : Session) : IO UInt32 := do
  match d.steps slice s with
  | (none, s) =>
    let (output, s) := takeOutput s
    writeOut output
    drive d s
  | r =>
    match Task.answerOf? (d.conclude r) with
    | some a => report a
    | none => return 1

def perform : Task → IO UInt32
  | .done a => report a
  | .run d s =>
    match d.begin s with
    | (.error e, s) => report (Answer.failure e s.stream.sink.written.toList)
    | (.ok (), s) => drive d s

end TapeDialects.Cli

open TapeDialects.Cli in
/-- Runs or converts a program, or lists the built-in dialects. -/
def main (args : List String) : IO UInt32 := do
  match Command.ofList? args with
  | none =>
    (← IO.getStderr).putStrLn
      "usage: (run [OPTIONS] FILE | convert [OPTIONS] FILE | list)"
    return 2
  | some command => perform (command.task (← readEnvironment command))
