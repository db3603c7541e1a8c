import TapeDialects.Cli.Execute

/-!
# A folder of files

A working folder that holds just some files, for commands that are run without a file
system. A path is followed name by name, so what stands behind a name that leads
nowhere is not looked at. Nothing is known of what lies outside the folder.
-/

namespace TapeDialects.Cli

abbrev Folder := List (String × List UInt8)

namespace Folder

/-- Where a path has led so far. -/
inductive Place where
  | inside
  | outside
  | file (content : List UInt8)
  deriving DecidableEq, Repr

/-- Follows the next name of a path. An empty name stays where it is, except behind a file. -/
def enter (files : Folder) (place : Place) (name : String) : Except ReadFailure Place :=
  match place with
  | .file _ => .error .notFolder
  | _ =>
    if name = "" ∨ name = "." then .ok place
    else if name = ".." then .ok .outside
    else if 255 < name.utf8ByteSize then .error .nameTooLong
    else
      match place, files.lookup name with
      | .inside, some content => .ok (.file content)
      | _, _ => .error .missing

/-- The place at the end of a path. A path that begins with a slash begins outside. -/
def find (files : Folder) (path : String) : Except ReadFailure Place :=
  if path.contains '\x00' then .error .nulInPath
  else if path = "" then .error .missing
  else if 4095 < path.utf8ByteSize then .error .nameTooLong
  else (path.splitOn "/").foldlM (enter files) (if path.startsWith "/" then .outside else .inside)

def read (files : Folder) (path : String) : Except ReadFailure (List UInt8) :=
  match files.find path with
  | .ok (.file content) => .ok content
  | .ok _ => .error .folder
  | .error failure => .error failure

end Folder

def Environment.ofFiles (files : Folder) (stdin : List UInt8) : Environment :=
  { read := files.read, stdin }

end TapeDialects.Cli
