/-!
# TOML values

The values of a TOML document. Tables remember how they came about, because that
decides which later lines may still add to them.
-/

namespace TapeDialects.Toml

/-- How a table came about. -/
inductive TableKind where
  /-- A header defines it, or it is the document itself. -/
  | header
  /-- The header of a table inside it implies it. -/
  | implied
  /-- A dotted key implies it. -/
  | dotted
  /-- It was written as a value, and is complete. -/
  | inlined
  deriving DecidableEq, Repr, Inhabited

inductive Value where
  | string (text : String)
  | integer (value : Int)
  | boolean (value : Bool)
  /-- A number with a fraction or an exponent, or one that is not finite. -/
  | float
  /-- A date, a time or both. -/
  | moment
  | array (items : List Value)
  /-- The tables that headers in double brackets have opened under one name. -/
  | tables (items : List Value)
  | table (kind : TableKind) (entries : List (String × Value))
  deriving Repr, Inhabited

abbrev Entries := List (String × Value)

namespace Entries

def replace (es : Entries) (key : String) (v : Value) : Entries :=
  es.map fun e => if e.1 = key then (key, v) else e

def add? (es : Entries) (key : String) (v : Value) : Option Entries :=
  if (es.lookup key).isSome then none else some (es ++ [(key, v)])

/-- Changes the table at a path. Tables that are missing come about as `kind`; a path that is a
dotted key enters only tables that are still open to it. -/
def modifyAt? (kind : TableKind) (change : TableKind → Entries → Option Entries) :
    (path : List String) → (reached : TableKind) → Entries → Option Entries
  | [], reached, es => change reached es
  | key :: path, _, es =>
    match es.lookup key with
    | none => do
      let inner ← modifyAt? kind change path kind []
      return es ++ [(key, .table kind inner)]
    | some (.table found inner) =>
      if found = .inlined ∨ (kind = .dotted ∧ found = .header) then none
      else do
        let inner ← modifyAt? kind change path found inner
        return replace es key (.table found inner)
    | some (.tables items) =>
      match items.getLast? with
      | some (.table found inner) => do
        let inner ← modifyAt? kind change path found inner
        return replace es key (.tables (items.dropLast ++ [.table found inner]))
      | _ => none
    | some _ => none

/-- Adds a value under a dotted key, the last part of which is given apart. -/
def addAt? (es : Entries) (path : List String) (key : String) (v : Value) : Option Entries :=
  modifyAt? .dotted
    (fun reached inner => if path ≠ [] ∧ reached ≠ .dotted then none else add? inner key v)
    path .header es

def openTable? (es : Entries) (path : List String) (key : String) : Option Entries :=
  modifyAt? .implied
    (fun _ inner =>
      match inner.lookup key with
      | none => some (inner ++ [(key, .table .header [])])
      | some (.table .implied entries) => some (replace inner key (.table .header entries))
      | some _ => none)
    path .header es

def openTables? (es : Entries) (path : List String) (key : String) : Option Entries :=
  modifyAt? .implied
    (fun _ inner =>
      match inner.lookup key with
      | none => some (inner ++ [(key, .tables [.table .header []])])
      | some (.tables items) => some (replace inner key (.tables (items ++ [.table .header []])))
      | some _ => none)
    path .header es

/-- Adds a value under a dotted key to the table that the last header has opened. -/
def addUnder? (es : Entries) (header : List String) (path : List String) (key : String)
    (v : Value) : Option Entries :=
  modifyAt? .implied (fun _ inner => addAt? inner path key v) header .header es

end Entries

end TapeDialects.Toml
