import Std.Data.HashMap
import TapeDialects.Error

/-!
# Token tables

A token table gives each opcode of a dialect its tokens: one that is written, and
any number of further ones that are read. The entries keep the order in which
they were declared; self-modifying dialects use an opcode's position as its
number.

Two opcodes may share a token. The opcode declared first then owns it, and the
index from tokens to owners, which is kept beside the entries, says so:
`TokenTable.getElem?_index` relates it to the entries.
-/

namespace TapeDialects

namespace TokenTable

/-- An opcode with its tokens, the written one first. -/
structure Entry where
  op : Opcode
  aliases : List String
  deriving DecidableEq, Repr, Inhabited

def Entry.canonical (e : Entry) : String := e.aliases.headD ""

def Entry.flaw? (e : Entry) : Option Error :=
  if e.aliases = [] then some (.noTokens e.op)
  else if "" ∈ e.aliases then some (.emptyToken e.op)
  else none

def Entry.WellFormed (e : Entry) : Prop := e.aliases ≠ [] ∧ "" ∉ e.aliases

theorem Entry.flaw?_eq_none_iff (e : Entry) : e.flaw? = none ↔ e.WellFormed := by
  unfold Entry.flaw? Entry.WellFormed
  split <;> simp_all

/-- The first flaw of a list of entries whose opcodes must also differ from those in `seen`. -/
def firstFlaw? : List Opcode → List Entry → Option Error
  | _, [] => none
  | seen, e :: es =>
    if e.op ∈ seen then some (.duplicateOpcode e.op)
    else e.flaw?.or (firstFlaw? (e.op :: seen) es)

theorem firstFlaw?_eq_none_iff (seen : List Opcode) (es : List Entry) :
    firstFlaw? seen es = none ↔
      (∀ e ∈ es, e.op ∉ seen) ∧ (es.map (·.op)).Nodup ∧ ∀ e ∈ es, e.WellFormed := by
  induction es generalizing seen with
  | nil => simp [firstFlaw?]
  | cons e es ih =>
    simp only [firstFlaw?, List.map_cons, List.nodup_cons, List.forall_mem_cons, List.mem_map,
      not_exists, not_and]
    split
    · simp_all
    · next h =>
      simp only [Option.or_eq_none_iff, ih, Entry.flaw?_eq_none_iff, List.mem_cons, not_or]
      constructor
      · rintro ⟨hf, ho, hn, hw⟩
        exact ⟨⟨h, fun x hx => (ho x hx).2⟩, ⟨fun x hx => (ho x hx).1, hn⟩, hf, hw⟩
      · rintro ⟨⟨_, ho⟩, ⟨hd, hn⟩, hf, hw⟩
        exact ⟨hf, fun x hx => ⟨hd x hx, ho x hx⟩, hn, hw⟩

def listings (es : List Entry) : List (String × Opcode) :=
  es.flatMap fun e => e.aliases.map fun t => (t, e.op)

/-- The index of a list of listings: the first listing of a token counts. -/
def buildIndex (ls : List (String × Opcode)) : Std.HashMap String Opcode :=
  ls.foldl (fun m l => m.insertIfNew l.1 l.2) ∅

theorem getElem?_foldl_insertIfNew (ls : List (String × Opcode)) (m : Std.HashMap String Opcode)
    (t : String) :
    (ls.foldl (fun m l => m.insertIfNew l.1 l.2) m)[t]? = m[t]?.or (ls.lookup t) := by
  induction ls generalizing m with
  | nil => simp
  | cons l ls ih =>
    rw [List.foldl_cons, ih, Std.HashMap.getElem?_insertIfNew, List.lookup_cons]
    by_cases h : l.1 = t
    · subst h
      by_cases hm : l.1 ∈ m
      · simp [hm]
      · simp [hm]
    · have h' : (t == l.1) = false := by simpa using fun e => h e.symm
      simp [h, h']

theorem getElem?_buildIndex (ls : List (String × Opcode)) (t : String) :
    (buildIndex ls)[t]? = ls.lookup t := by
  simp [buildIndex, getElem?_foldl_insertIfNew]

end TokenTable

open TokenTable (Entry)

/-- The tokens of a dialect: entries with distinct opcodes and nonempty tokens. -/
structure TokenTable where
  entries : List Entry
  /-- The owner of each token. -/
  index : Std.HashMap String Opcode
  opcodes_nodup : (entries.map (·.op)).Nodup
  entries_wellFormed : ∀ e ∈ entries, e.WellFormed
  index_eq : index = TokenTable.buildIndex (TokenTable.listings entries)

namespace TokenTable

theorem ext {a b : TokenTable} (h : a.entries = b.entries) : a = b := by
  obtain ⟨ea, ia, _, _, ha⟩ := a
  obtain ⟨eb, ib, _, _, hb⟩ := b
  subst h ha hb
  rfl

instance : DecidableEq TokenTable := fun a b =>
  decidable_of_iff (a.entries = b.entries) ⟨ext, fun h => h ▸ rfl⟩

/-! ### Building -/

def declare (entries : List Entry) (h : firstFlaw? [] entries = none) : TokenTable :=
  { entries
    index := buildIndex (listings entries)
    opcodes_nodup := ((firstFlaw?_eq_none_iff [] entries).1 h).2.1
    entries_wellFormed := ((firstFlaw?_eq_none_iff [] entries).1 h).2.2
    index_eq := rfl }

/-- The table of the given entries, or the first flaw among them. -/
def ofEntries (entries : List Entry) : Except Error TokenTable :=
  match h : firstFlaw? [] entries with
  | some flaw => .error flaw
  | none => .ok (declare entries h)

def coreEntries (aliases : List (List String)) : List Entry :=
  Opcode.core.zipWith (fun op tokens => ⟨op, tokens⟩) aliases

/-- The table of the core opcodes with one token each, in the order of `Opcode.core`. -/
def ofCoreTokens (tokens : List String) : Except Error TokenTable :=
  ofEntries (coreEntries (tokens.map ([·])))

instance : Inhabited TokenTable := ⟨declare [] rfl⟩

/-! ### Looking up -/

def size (t : TokenTable) : Nat := t.entries.length

def isEmpty (t : TokenTable) : Bool := t.entries.isEmpty

def opcodes (t : TokenTable) : List Opcode := t.entries.map (·.op)

def tokens (t : TokenTable) : List String := t.entries.map (·.canonical)

def allTokens (t : TokenTable) : List String := t.entries.flatMap (·.aliases)

def aliases? (t : TokenTable) (op : Opcode) : Option (List String) :=
  (t.entries.find? fun e => e.op == op).map (·.aliases)

def position? (t : TokenTable) (op : Opcode) : Option Nat :=
  t.entries.findIdx? fun e => e.op == op

def opcodeAt? (t : TokenTable) (i : Nat) : Option Opcode :=
  t.entries[i]?.map (·.op)

def contains (t : TokenTable) (op : Opcode) : Bool := t.entries.any fun e => e.op == op

def opcodeOf? (t : TokenTable) (token : String) : Option Opcode := t.index[token]?

def opcodeOf (t : TokenTable) (token : String) : Except Error Opcode :=
  match t.opcodeOf? token with
  | some op => .ok op
  | none => .error (.unknownToken token)

/-- The token number `i` of an opcode; number 0 is the written one. -/
def tokenOf (t : TokenTable) (op : Opcode) (i : Nat) : Except Error String :=
  match t.aliases? op with
  | none => .error (.unknownOpcode op)
  | some tokens =>
    match tokens[i]? with
    | some token => .ok token
    | none => .error (.aliasOutOfRange op i tokens.length)

/-! ### Replacing tokens -/

def withAliases (es : List Entry) (aliases : List (List String)) : List Entry :=
  es.zipWith (fun e as => { e with aliases := as }) aliases

theorem map_op_withAliases (es : List Entry) (aliases : List (List String))
    (h : aliases.length = es.length) : (withAliases es aliases).map (·.op) = es.map (·.op) := by
  induction es generalizing aliases with
  | nil => simp [withAliases]
  | cons e es ih =>
    cases aliases with
    | nil => simp at h
    | cons as aliases =>
      have := ih aliases (by simpa using h)
      simpa [withAliases] using this

/-- The table with new tokens for every opcode, in order. -/
def replaceAliases (t : TokenTable) (aliases : List (List String)) : Except Error TokenTable :=
  if hl : aliases.length = t.entries.length then
    match hf : (withAliases t.entries aliases).findSome? (·.flaw?) with
    | some flaw => .error flaw
    | none =>
      .ok
        { entries := withAliases t.entries aliases
          index := buildIndex (listings (withAliases t.entries aliases))
          opcodes_nodup := by
            rw [map_op_withAliases _ _ hl]
            exact t.opcodes_nodup
          entries_wellFormed := fun e he =>
            e.flaw?_eq_none_iff.1 (List.findSome?_eq_none_iff.1 hf e he)
          index_eq := rfl }
  else .error (.tokenCountMismatch t.entries.length aliases.length)

def replaceTokens (t : TokenTable) (tokens : List String) : Except Error TokenTable :=
  t.replaceAliases (tokens.map ([·]))

/-- New tokens for the opcodes of a table in order: one for each, or a list for each. -/
inductive Replacement where
  | single (tokens : List String)
  | full (aliases : List (List String))

namespace Replacement

def aliases : Replacement → List (List String)
  | single tokens => tokens.map ([·])
  | full aliases => aliases

def replaced (r : Replacement) (t : TokenTable) : Except Error TokenTable :=
  match r with
  | single tokens => t.replaceTokens tokens
  | full aliases => t.replaceAliases aliases

/-- The replacement in place: one that fails leaves the table. -/
def run (r : Replacement) : ExceptT Error (StateM TokenTable) Unit := fun t =>
  match r.replaced t with
  | .ok u => (.ok (), u)
  | .error e => (.error e, t)

end Replacement

/-! ### What look-ups find -/

theorem opcodeOf?_eq_lookup (t : TokenTable) (token : String) :
    t.opcodeOf? token = (listings t.entries).lookup token := by
  unfold opcodeOf?
  rw [t.index_eq, getElem?_buildIndex]

theorem contains_iff (t : TokenTable) (op : Opcode) : t.contains op = true ↔ op ∈ t.opcodes := by
  simp [contains, opcodes]

theorem entries_replaceAliases {t u : TokenTable} {aliases : List (List String)}
    (h : t.replaceAliases aliases = .ok u) :
    aliases.length = t.entries.length ∧ u.entries = withAliases t.entries aliases := by
  unfold replaceAliases at h
  split at h
  · next hl =>
    split at h
    · contradiction
    · cases h
      exact ⟨hl, rfl⟩
  · contradiction

theorem opcodes_replaceAliases {t u : TokenTable} {aliases : List (List String)}
    (h : t.replaceAliases aliases = .ok u) : u.opcodes = t.opcodes := by
  obtain ⟨hl, he⟩ := entries_replaceAliases h
  rw [opcodes, he, map_op_withAliases _ _ hl]
  rfl

end TokenTable

end TapeDialects
