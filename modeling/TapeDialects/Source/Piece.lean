import TapeDialects.Source.Occurrence

/-!
# Pieces

The parts of a text between separators. The text is cut from left to right at
the earliest separator, the longest of those at one place; pieces without
characters are left out. Where there is no separator, white space cuts.
-/

namespace TapeDialects

/-! ### White space -/

namespace Text

/-- The ranges of the twenty-five white space characters of Unicode. -/
def blankRanges : List (Nat × Nat) :=
  [(0x09, 0x0d), (0x20, 0x20), (0x85, 0x85), (0xa0, 0xa0), (0x1680, 0x1680), (0x2000, 0x200a),
   (0x2028, 0x2029), (0x202f, 0x202f), (0x205f, 0x205f), (0x3000, 0x3000)]

def isBlank (c : Char) : Bool :=
  blankRanges.any fun r => r.1 ≤ c.toNat && c.toNat ≤ r.2

theorem isBlank_of_isWhitespace {c : Char} (h : c.isWhitespace = true) : isBlank c = true := by
  simp only [Char.isWhitespace, Bool.or_eq_true, decide_eq_true_eq] at h
  rcases h with ((h | h) | h) | h <;> subst h <;> decide

end Text

/-! ### Cutting -/

structure Piece where
  offset : Nat
  text : String
  deriving DecidableEq, Repr

namespace Piece

def beforeSeparator (cur : Cursor) (o : Occurrence) : Piece × Cursor :=
  (⟨cur.offset, cur.textWithin (o.offset - cur.offset)⟩, cur.pass (o.stop - cur.offset))

def addTo (found : List Piece) (p : Piece) : List Piece :=
  if p.text.isEmpty then found else p :: found

def splitFrom (candidates : List Candidate) (found : List Piece) (cur : Cursor) : List Piece :=
  if _h : cur.rest = [] then found.reverse
  else
    let candidates := candidates.map (·.refresh cur)
    match Candidate.earliest candidates with
    | none => (addTo found ⟨cur.offset, String.ofList cur.rest⟩).reverse
    | some o =>
      splitFrom candidates (addTo found (beforeSeparator cur o).1) (beforeSeparator cur o).2
termination_by cur.rest.length
decreasing_by exact cur.length_rest_pass_lt _ _h

/-- Cuts the text at white space: `word` is the piece under way, reversed, that began at `start`. -/
def splitBlanksFrom (found : List Piece) (start : Nat) (word : List Char) :
    (offset : Nat) → List Char → List Piece
  | _, [] => (addTo found ⟨start, String.ofList word.reverse⟩).reverse
  | offset, c :: cs =>
    if Text.isBlank c then
      splitBlanksFrom (addTo found ⟨start, String.ofList word.reverse⟩) (offset + c.utf8Size) []
        (offset + c.utf8Size) cs
    else splitBlanksFrom found start (c :: word) (offset + c.utf8Size) cs

/-- The pieces of a text between the given separators, empty ones of which do not count. -/
def split (separators : List String) (source : String) : List Piece :=
  match separators.filter (!·.isEmpty) with
  | [] => splitBlanksFrom [] 0 [] 0 source.toList
  | separators => splitFrom (Candidate.ofTokens separators) [] (Cursor.ofText source)

end Piece

end TapeDialects
