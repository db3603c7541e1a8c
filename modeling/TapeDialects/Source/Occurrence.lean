import TapeDialects.Source.Cursor

/-!
# Occurrences

Where a token occurs next in a source text. A `Candidate` is a token together
with what is already known about its next occurrence; `Candidate.refresh` searches
only when that knowledge has fallen behind the cursor. Of several occurrences the
earliest counts, and of those at one place the longest.
-/

namespace TapeDialects

/-- A token at a byte offset of the source. -/
structure Occurrence where
  offset : Nat
  token : String
  deriving DecidableEq, Repr

namespace Occurrence

def stop (o : Occurrence) : Nat := o.offset + o.token.utf8ByteSize

/-- An occurrence goes before another if it starts earlier, or at the same place and is longer. -/
def Before (a b : Occurrence) : Prop :=
  a.offset < b.offset ∨ a.offset = b.offset ∧ b.token.utf8ByteSize < a.token.utf8ByteSize

instance (a b : Occurrence) : Decidable (a.Before b) :=
  inferInstanceAs (Decidable (_ ∨ _))

def improve (best : Option Occurrence) (o : Occurrence) : Option Occurrence :=
  match best with
  | none => some o
  | some b => if o.Before b then some o else some b

/-- The occurrence that goes before all others, the first of them if they are equal. -/
def earliest (os : List Occurrence) : Option Occurrence := os.foldl improve none

end Occurrence

def firstOffset? (chars : List Char) : (offset : Nat) → List Char → Option Nat
  | offset, [] => if chars.isPrefixOf [] then some offset else none
  | offset, c :: cs =>
    if chars.isPrefixOf (c :: cs) then some offset
    else firstOffset? chars (offset + c.utf8Size) cs

/-- What is known about the next occurrence of a token. -/
inductive Sighting where
  | unknown
  | found (offset : Nat)
  | never
  deriving DecidableEq, Repr

/-- A token that is searched for, with what is known about its next occurrence. -/
structure Candidate where
  token : String
  sighting : Sighting := .unknown
  deriving DecidableEq, Repr

namespace Candidate

def search (cur : Cursor) (c : Candidate) : Candidate :=
  match firstOffset? c.token.toList cur.offset cur.rest with
  | some offset => { c with sighting := .found offset }
  | none => { c with sighting := .never }

/-- The candidate with knowledge that is up to date at the cursor. -/
def refresh (cur : Cursor) (c : Candidate) : Candidate :=
  match c.sighting with
  | .unknown => c.search cur
  | .found offset => if cur.offset ≤ offset then c else c.search cur
  | .never => c

def occurrence? (c : Candidate) : Option Occurrence :=
  match c.sighting with
  | .found offset => some ⟨offset, c.token⟩
  | _ => none

def ofTokens (tokens : List String) : List Candidate := tokens.map fun t => { token := t }

def earliest (cs : List Candidate) : Option Occurrence :=
  Occurrence.earliest (cs.filterMap occurrence?)

end Candidate

/-- The earliest occurrence of any of the tokens from the cursor on, found by searching for each. -/
def Cursor.earliest (cur : Cursor) (tokens : List String) : Option Occurrence :=
  Candidate.earliest ((Candidate.ofTokens tokens).map (·.search cur))

end TapeDialects
