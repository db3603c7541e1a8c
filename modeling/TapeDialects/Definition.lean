import TapeDialects.Dialect.Basic
import TapeDialects.Toml.Document

/-!
# Dialect definitions

A dialect can be defined in a TOML document: its name, its surface, its machine,
and its opcodes by name. `Definition.ofText?` reads the document, which must have no
key that a definition does not know; `Definition.build` makes the dialect.
Opcodes get their standard handlers, so custom opcodes cannot be defined here.
-/

namespace TapeDialects

/-- An opcode with its tokens, as a definition gives them. -/
structure OpcodeEntry where
  name : String
  tokens : List String
  deriving DecidableEq, Repr, Inhabited

structure RegionEntry where
  opener : String
  closer : String
  kind : RegionKind
  deriving DecidableEq, Repr

structure Definition where
  name : String
  separators : List String := []
  mode : LexMode := .scan
  machine : MachineConfig := {}
  ops : List OpcodeEntry
  regions : List RegionEntry := []
  deriving DecidableEq, Repr

namespace Toml.Value

/-! ### Reading values -/

def text? : Value → Option String
  | .string s => some s
  | _ => none

def boolean? : Value → Option Bool
  | .boolean b => some b
  | _ => none

def natural? (bound : Nat) : Value → Option Nat
  | .integer i => if 0 ≤ i ∧ i < bound then some i.toNat else none
  | _ => none

def items? : Value → Option (List Value)
  | .array vs => some vs
  | .tables vs => some vs
  | _ => none

/-- The list that a value is, with every item read in the same way. -/
def listOf? {α : Type} (item : Value → Option α) (v : Value) : Option (List α) :=
  v.items?.bind fun vs => vs.mapM item

def isHollow : Value → Bool
  | .array vs => vs.isEmpty
  | .tables vs => vs.isEmpty
  | .table _ es => es.isEmpty
  | _ => false

/-- The choice that a value names: as a text, or as the key of a table with a hollow value. -/
def choice? {α : Type} (choices : List (String × α)) : Value → Option α
  | .string s => choices.lookup s
  | .table _ [(s, v)] => if v.isHollow then choices.lookup s else none
  | _ => none

/-- The fields of a record: the entries of a table that has no others, or the items of an array
in the order of the fields. -/
def fields? (known : List String) : Value → Option Entries
  | .table _ es => if es.all fun e => known.contains e.1 then some es else none
  | .array vs => some (known.zip vs)
  | .tables vs => some (known.zip vs)
  | _ => none

end Toml.Value

namespace Toml.Entries

def field? {α : Type} (es : Entries) (name : String) (read : Value → Option α) : Option α :=
  (es.lookup name).bind read

def fieldD? {α : Type} (es : Entries) (name : String) (default : α) (read : Value → Option α) :
    Option α :=
  match es.lookup name with
  | none => some default
  | some v => read v

end Toml.Entries

namespace Definition

open Toml (Value Entries)

def lexModes : List (String × LexMode) := [("scan", .scan), ("delimited", .delimited)]

def regionKinds : List (String × RegionKind) := [("literal", .literal), ("comment", .comment)]

def edgePolicies : List (String × EdgePolicy) :=
  [("error", .error), ("wrap", .wrap), ("grow", .grow)]

def outputModes : List (String × OutputMode) := [("char", .char), ("byte", .byte)]

def opcodeEntry? (v : Value) : Option OpcodeEntry := do
  let es ← v.fields? ["name", "tokens"]
  let name ← es.field? "name" Value.text?
  let tokens ← es.field? "tokens" (Value.listOf? Value.text?)
  return { name, tokens }

def regionEntry? (v : Value) : Option RegionEntry := do
  let es ← v.fields? ["open", "close", "kind"]
  let opener ← es.field? "open" Value.text?
  let closer ← es.field? "close" Value.text?
  let kind ← es.field? "kind" (Value.choice? regionKinds)
  return { opener, closer, kind }

def machineConfig? (v : Value) : Option MachineConfig := do
  let es ← v.fields? ["tape-size", "cell-width", "signed-cell", "wrap-cell", "edge", "output",
    "step-limit"]
  let d : MachineConfig := {}
  let tapeSize ← es.fieldD? "tape-size" d.tapeSize (Value.natural? (1 <<< 64))
  let cellWidth ← es.fieldD? "cell-width" d.cellWidth (Value.natural? (1 <<< 32))
  let signedCell ← es.fieldD? "signed-cell" d.signedCell Value.boolean?
  let wrapCell ← es.fieldD? "wrap-cell" d.wrapCell Value.boolean?
  let edge ← es.fieldD? "edge" d.edge (Value.choice? edgePolicies)
  let output ← es.fieldD? "output" d.output (Value.choice? outputModes)
  let stepLimit ← es.fieldD? "step-limit" d.stepLimit
    fun v => (v.natural? (1 <<< 64)).map some
  return { tapeSize, cellWidth, signedCell, wrapCell, edge, output, stepLimit }

def ofEntries? (es : Entries) : Option Definition := do
  let es ← (Value.table .header es).fields?
    ["name", "separators", "mode", "machine", "op", "region"]
  let name ← es.field? "name" Value.text?
  let separators ← es.fieldD? "separators" [] (Value.listOf? Value.text?)
  let mode ← es.fieldD? "mode" .scan (Value.choice? lexModes)
  let machine ← es.fieldD? "machine" {} machineConfig?
  let ops ← es.field? "op" (Value.listOf? opcodeEntry?)
  let regions ← es.fieldD? "region" [] (Value.listOf? regionEntry?)
  return { name, separators, mode, machine, ops, regions }

def ofText? (text : String) : Option Definition := (Toml.document? text).bind ofEntries?

/-! ### Building -/

def opcode (name : String) : Except Error Opcode :=
  match Opcode.ofName? name with
  | some op => .ok op
  | none => .error (.unknownOpcodeName name)

def tableEntry (e : OpcodeEntry) : Except Error TokenTable.Entry := do
  let op ← opcode e.name
  return ⟨op, e.tokens⟩

def region (e : RegionEntry) : Except Error Region := do
  let opener ← opcode e.opener
  let closer ← opcode e.closer
  return { opener, closer, kind := e.kind }

/-- The dialect that a definition describes. -/
def build (d : Definition) : Except Error Dialect := do
  let entries ← d.ops.mapM tableEntry
  let table ← TokenTable.ofEntries entries
  let regions ← d.regions.mapM region
  Draft.build
    { name := d.name
      table
      config := d.machine
      surface := { separators := d.separators, mode := d.mode, regions } }

def load (path : String) (text : String) : Except Error Dialect :=
  match ofText? text with
  | none => .error (.malformedDefinition path)
  | some d =>
    match d.build with
    | .ok dialect => .ok dialect
    | .error e => .error (.rejectedDefinition path e)

end Definition

end TapeDialects
