import TapeDialects.Toml.Scalar
import TapeDialects.Toml.Text

/-!
# TOML documents

A document is a sequence of lines: a key with its value, the header of a table,
or nothing but a comment. `Toml.document?` reads a whole document into the entries
of its outermost table.
-/

namespace TapeDialects.Toml

/-- Readers of a text, which may refuse it. -/
abbrev Reader := StateT (List Char) Option

namespace Reader

def ofFunction {α : Type} (f : List Char → Option (α × List Char)) : Reader α := f

def peek? : Reader (Option Char) := fun cs => some (cs.head?, cs)

def expect (c : Char) : Reader Unit
  | [] => none
  | d :: cs => if d = c then some ((), cs) else none

def accept (c : Char) : Reader Bool
  | [] => some (false, [])
  | d :: cs => some (if d = c then (true, cs) else (false, d :: cs))

def readWhile (p : Char → Bool) : Reader (List Char) := fun cs =>
  some (cs.takeWhile p, cs.dropWhile p)

def skipBlanks : Reader Unit := fun cs => some ((), cs.dropWhile isBlank)

def skipComment : Reader Unit
  | '#' :: cs => some ((), cs.dropWhile isPlain)
  | cs => some ((), cs)

def lineEnd : Reader Unit := do
  skipBlanks
  skipComment
  ofFunction fun cs =>
    match cs with
    | [] => some ((), [])
    | cs => (newline? cs).map fun cs => ((), cs)

def skipLines : (fuel : Nat) → Reader Unit
  | 0 => pure ()
  | fuel + 1 => fun cs =>
    match skipSpace cs with
    | '#' :: cs => skipLines fuel (cs.dropWhile isPlain)
    | cs => some ((), cs)

def skipFiller : Reader Unit := fun cs => skipLines (cs.length + 1) cs

/-! ### Keys -/

def isKeyChar (c : Char) : Bool := c.isAlphanum || c == '_' || c == '-'

def keyPart : Reader String := do
  match ← peek? with
  | some '"' | some '\'' => ofFunction lineString?
  | _ =>
    let cs ← readWhile isKeyChar
    if cs.isEmpty then failure else return String.ofList cs

def keyParts : (fuel : Nat) → Reader (List String)
  | 0 => failure
  | fuel + 1 => do
    skipBlanks
    let part ← keyPart
    skipBlanks
    if ← accept '.' then
      let parts ← keyParts fuel
      return part :: parts
    else return [part]

/-- The number of values, or parts of a key, that may be nested. -/
def nesting : Nat := 79

def key : Reader (List String × String) := do
  let parts ← keyParts nesting
  match parts.getLast? with
  | some name => return (parts.dropLast, name)
  | none => failure

/-! ### Values -/

def arrayItems (value : Reader Value) : (fuel : Nat) → Reader (List Value)
  | 0 => failure
  | fuel + 1 => do
    skipFiller
    if ← accept ']' then return []
    let v ← value
    skipFiller
    if ← accept ',' then
      let vs ← arrayItems value fuel
      return v :: vs
    else
      expect ']'
      return [v]

def assignment (value : Reader Value) : Reader ((List String × String) × Value) := do
  let k ← key
  expect '='
  skipBlanks
  let v ← value
  return (k, v)

def inlineEntries (value : Reader Value) : (fuel : Nat) → (entries : Entries) → Reader Entries
  | 0, _ => failure
  | fuel + 1, entries => do
    let ((path, name), v) ← assignment value
    skipBlanks
    let some entries := entries.addAt? path name v | failure
    if ← accept ',' then inlineEntries value fuel entries
    else
      expect '\x7d'
      return entries

def inlineTable (value : Reader Value) : Reader Value := do
  skipBlanks
  if ← accept '\x7d' then return .table .inlined []
  let fuel := (← get).length
  let entries ← inlineEntries value fuel []
  return .table .inlined entries

/-- Reads a word, or a date and a time with a blank between them. -/
def word : Reader Value := do
  let cs ← readWhile isWordChar
  if isDate cs then
    ofFunction fun rest =>
      match rest with
      | ' ' :: tail =>
        if isTimeWithOffset (tail.takeWhile isWordChar) then
          some (.moment, tail.dropWhile isWordChar)
        else some (.moment, rest)
      | _ => some (.moment, rest)
  else
    match word? cs with
    | some v => return v
    | none => failure

def scalar : Reader Value := do
  match ← peek? with
  | some '"' | some '\'' =>
    let s ← ofFunction string?
    return .string s
  | _ => word

/-- Reads a value in which at most `depth` arrays and tables are nested. -/
def value : (depth : Nat) → Reader Value
  | 0 => scalar
  | depth + 1 => do
    match ← peek? with
    | some '[' =>
      expect '['
      let fuel := (← get).length
      let items ← arrayItems (value depth) fuel
      return .array items
    | some '\x7b' =>
      expect '\x7b'
      inlineTable (value depth)
    | _ => scalar

/-! ### Lines -/

/-- What is read so far: the entries of the document, and the path of the last header. -/
structure Outline where
  entries : Entries := []
  header : List String := []

def header (o : Outline) : Reader Outline := do
  if ← accept '[' then
    let (path, name) ← key
    expect ']'
    expect ']'
    lineEnd
    let some entries := o.entries.openTables? path name | failure
    return ⟨entries, path ++ [name]⟩
  else
    let (path, name) ← key
    expect ']'
    lineEnd
    let some entries := o.entries.openTable? path name | failure
    return ⟨entries, path ++ [name]⟩

def line (o : Outline) : Reader Outline := do
  skipBlanks
  match ← peek? with
  | none => return o
  | some '#' | some '\n' | some '\r' =>
    lineEnd
    return o
  | some '[' =>
    expect '['
    header o
  | some _ =>
    let ((path, name), v) ← assignment (value nesting)
    lineEnd
    let some entries := o.entries.addUnder? o.header path name v | failure
    return { o with entries }

def lines : (fuel : Nat) → (o : Outline) → Reader Outline
  | 0, _ => failure
  | fuel + 1, o => do
    let o ← line o
    if (← get).isEmpty then return o else lines fuel o

end Reader

def dropMark : List Char → List Char
  | '\ufeff' :: cs => cs
  | cs => cs

def document? (text : String) : Option Entries :=
  let cs := dropMark text.toList
  (Reader.lines (cs.length + 1) {} cs).map fun r => r.1.entries

end TapeDialects.Toml
