import TapeDialects.Source.Piece
import TapeDialects.Surface
import TapeDialects.TokenTable

/-!
# Lexing

What a source text holds for a dialect: its tokens, each with its place, and the text behind the
last of them. The surface says in which of two ways they are found.

A scan finds the tokens of a table anywhere in the text. The token that occurs earliest
wins, the longest of those at one place, and the text before it is passed
over. A token that opens a region takes the region with it: a literal becomes
part of the lexeme and a comment disappears. A literal that is never closed loses
its opening token only; a comment that is never closed is an error. Otherwise the tokens
are those of the pieces of the text that belong to the table.
-/

namespace TapeDialects

structure Lexeme where
  text : String
  literal : Option String := none
  offset : Nat
  deriving DecidableEq, Repr

/-- The tokens of a source text. -/
structure Lexed where
  lexemes : List Lexeme
  /-- The text behind the last token, which holds no further one. -/
  trailing : String
  deriving DecidableEq, Repr

def Lexed.texts (l : Lexed) : List String := l.lexemes.map (·.text)

/-! ### Scanning -/

/-- What a step of a scan has found, and where the scan goes on. -/
structure ScanStep where
  lexeme? : Option Lexeme := none
  next : Cursor
  deriving DecidableEq, Repr

/-- The place just behind an occurrence that lies after the cursor. -/
def Cursor.behind (cur : Cursor) (o : Occurrence) : Cursor := cur.pass (o.stop - cur.offset)

namespace TokenTable

/-- The step at an occurrence of a token, with the region that the token opens. -/
def stepAt (t : TokenTable) (cur : Cursor) (o : Occurrence) (opened : Option Region) :
    Except Error ScanStep :=
  let inner := cur.behind o
  match opened with
  | none => .ok { lexeme? := some { text := o.token, offset := o.offset }, next := inner }
  | some region =>
    match region.kind, inner.earliest ((t.aliases? region.closer).getD []) with
    | .literal, some close =>
      .ok
        { lexeme? := some
            { text := o.token
              literal := some (inner.textWithin (close.offset - inner.offset))
              offset := o.offset }
          next := inner.behind close }
    | .literal, none => .ok { next := inner }
    | .comment, some close => .ok { next := inner.behind close }
    | .comment, none => .error (.unterminatedComment o.offset)

def scanStep (t : TokenTable) (s : Surface) (cur : Cursor) (o : Occurrence) :
    Except Error ScanStep :=
  match t.opcodeOf o.token with
  | .ok op => t.stepAt cur o (s.regionOpenedBy op)
  | .error e => .error e

section

variable {t : TokenTable} {s : Surface} {cur : Cursor} {o : Occurrence} {opened : Option Region}
  {step : ScanStep}

theorem length_rest_behind_le (cur : Cursor) (o : Occurrence) :
    (cur.behind o).rest.length ≤ cur.rest.length := cur.length_rest_pass_le _

theorem length_rest_behind_lt (cur : Cursor) (o : Occurrence) (h : cur.rest ≠ []) :
    (cur.behind o).rest.length < cur.rest.length := cur.length_rest_pass_lt _ h

theorem stepAt_none :
    t.stepAt cur o none =
      .ok { lexeme? := some { text := o.token, offset := o.offset }, next := cur.behind o } := rfl

section Region

variable {region : Region} {close : Occurrence}

theorem stepAt_literal (hk : region.kind = .literal)
    (hc : (cur.behind o).earliest ((t.aliases? region.closer).getD []) = some close) :
    t.stepAt cur o (some region) =
      .ok
        { lexeme? := some
            { text := o.token
              literal := some ((cur.behind o).textWithin (close.offset - (cur.behind o).offset))
              offset := o.offset }
          next := (cur.behind o).behind close } := by
  unfold stepAt
  dsimp only
  rw [hk, hc]

theorem stepAt_unclosed (hk : region.kind = .literal)
    (hc : (cur.behind o).earliest ((t.aliases? region.closer).getD []) = none) :
    t.stepAt cur o (some region) = .ok { next := cur.behind o } := by
  unfold stepAt
  dsimp only
  rw [hk, hc]

theorem stepAt_comment (hk : region.kind = .comment)
    (hc : (cur.behind o).earliest ((t.aliases? region.closer).getD []) = some close) :
    t.stepAt cur o (some region) = .ok { next := (cur.behind o).behind close } := by
  unfold stepAt
  dsimp only
  rw [hk, hc]

theorem stepAt_unterminated (hk : region.kind = .comment)
    (hc : (cur.behind o).earliest ((t.aliases? region.closer).getD []) = none) :
    t.stepAt cur o (some region) = .error (.unterminatedComment o.offset) := by
  unfold stepAt
  dsimp only
  rw [hk, hc]

end Region

/-- A step goes on behind its token, or behind the token that closes the region. -/
theorem next_of_stepAt (h : t.stepAt cur o opened = .ok step) :
    step.next = cur.behind o ∨
      ∃ op close, (cur.behind o).earliest ((t.aliases? op).getD []) = some close ∧
        step.next = (cur.behind o).behind close := by
  unfold stepAt at h
  dsimp only at h
  split at h
  · cases h
    exact .inl rfl
  · next region =>
    split at h
    · next close _ hclose =>
      cases h
      exact .inr ⟨region.closer, close, hclose, rfl⟩
    · cases h
      exact .inl rfl
    · next close _ hclose =>
      cases h
      exact .inr ⟨region.closer, close, hclose, rfl⟩
    · contradiction

theorem next_of_scanStep (h : t.scanStep s cur o = .ok step) :
    step.next = cur.behind o ∨
      ∃ op close, (cur.behind o).earliest ((t.aliases? op).getD []) = some close ∧
        step.next = (cur.behind o).behind close := by
  unfold scanStep at h
  split at h
  · exact next_of_stepAt h
  · contradiction

theorem length_rest_of_scanStep (h : cur.rest ≠ []) (hs : t.scanStep s cur o = .ok step) :
    step.next.rest.length < cur.rest.length := by
  have hlt := length_rest_behind_lt cur o h
  rcases next_of_scanStep hs with hn | ⟨_, close, _, hn⟩
  · rwa [hn]
  · rw [hn]
    exact Nat.lt_of_le_of_lt (length_rest_behind_le _ close) hlt

end

def scanFrom (t : TokenTable) (s : Surface) (candidates : List Candidate) (found : List Lexeme)
    (cur : Cursor) : Except Error Lexed :=
  if _h : cur.rest = [] then .ok ⟨found.reverse, ""⟩
  else
    let candidates := candidates.map (·.refresh cur)
    match Candidate.earliest candidates with
    | none => .ok ⟨found.reverse, String.ofList cur.rest⟩
    | some o =>
      match _hs : t.scanStep s cur o with
      | .ok step => t.scanFrom s candidates (step.lexeme?.toList ++ found) step.next
      | .error e => .error e
termination_by cur.rest.length
decreasing_by exact length_rest_of_scanStep _h _hs

def scan (t : TokenTable) (s : Surface) (source : String) : Except Error Lexed :=
  t.scanFrom s (Candidate.ofTokens t.allTokens) [] (Cursor.ofText source)

/-! ### Both ways -/

/-- The pieces of a text that are tokens of the table. -/
def lexPieces (t : TokenTable) (s : Surface) (source : String) : Lexed :=
  { lexemes := (Piece.split s.separators source).filterMap fun p =>
      if (t.opcodeOf? p.text).isSome then some { text := p.text, offset := p.offset } else none
    trailing := "" }

def lex (t : TokenTable) (s : Surface) (source : String) : Except Error Lexed :=
  match s.mode with
  | .scan => t.scan s source
  | .delimited => .ok (t.lexPieces s source)

end TokenTable

end TapeDialects
