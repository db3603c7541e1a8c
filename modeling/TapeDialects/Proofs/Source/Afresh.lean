import TapeDialects.Proofs.Source.FirstToken
import TapeDialects.Proofs.TokenTable.Lookup

/-!
# Lexing afresh

A scan remembers for each token where it occurs next, and searches again only when the cursor
has passed that place. `TokenTable.scanAfresh` remembers nothing: at every place it searches for
every token from the cursor on. Both give the same lexemes, trailing text and errors
(`lex_eq_scanAfresh`).

The invariant is `Candidate.Sound`: what is remembered of a token is its first place at or
behind the cursor, unless the cursor has passed that place. A cursor that moves ahead over whole
characters keeps it, whatever made it move.
-/

namespace TapeDialects

open Cursor (byteLength byteLength_append)

namespace Cursor

/-- The second cursor stands in the same text, some characters further on. -/
def Ahead (cur next : Cursor) : Prop :=
  ∃ front, front ≠ [] ∧ cur.rest = front ++ next.rest ∧
    next.offset = cur.offset + byteLength front

variable {cur next last : Cursor} {tokens : List String} {o : Occurrence}

theorem Ahead.trans (h : cur.Ahead next) (h' : next.Ahead last) : cur.Ahead last := by
  obtain ⟨front, hf, hr, ho⟩ := h
  obtain ⟨front', _, hr', ho'⟩ := h'
  refine ⟨front ++ front', by simp [hf], by rw [hr, hr', List.append_assoc], ?_⟩
  rw [ho', ho, byteLength_append, Nat.add_assoc]

theorem Ahead.length_lt (h : cur.Ahead next) : next.rest.length < cur.rest.length := by
  obtain ⟨front, hf, hr, _⟩ := h
  have := List.length_pos_iff.2 hf
  rw [hr, List.length_append]
  omega

theorem ahead_induction {motive : Cursor → Prop}
    (step : ∀ cur, (∀ next, cur.Ahead next → motive next) → motive cur) (cur : Cursor) :
    motive cur := by
  generalize hn : cur.rest.length = n
  induction n using Nat.strongRecOn generalizing cur with
  | ind n ih =>
    refine step cur fun next ha => ?_
    have hl := ha.length_lt
    exact ih next.rest.length (by omega) next rfl

/-- Tokens are not empty, so the place behind an occurrence lies ahead. -/
theorem ahead_behind (hne : "" ∉ tokens) (h : cur.earliest tokens = some o) :
    cur.Ahead (cur.behind o) := by
  obtain ⟨skipped, back, hf, ho⟩ := firstToken_of_earliest h
  have ht : o.token.toList ≠ [] := by
    intro he
    have : o.token = "" := String.toList_eq_nil_iff.1 he
    exact hne (this ▸ hf.mem)
  have hb := hf.behind_eq ht
  rw [← ho] at hb
  rw [hb]
  exact ⟨skipped ++ o.token.toList, by simp [ht], by rw [hf.text_eq, List.append_assoc], rfl⟩

end Cursor

/-! ### What is remembered of a token -/

theorem firstOffset?_ahead {chars front back : List Char} {offset n : Nat}
    (h : firstOffset? chars offset (front ++ back) = some n)
    (hn : offset + byteLength front ≤ n) :
    firstOffset? chars (offset + byteLength front) back = some n := by
  induction front generalizing offset with
  | nil => exact h
  | cons c cs ih =>
    have hc := c.utf8Size_pos
    rw [byteLength] at hn ⊢
    rw [List.cons_append, firstOffset?] at h
    split at h
    · cases h
      omega
    · rw [← Nat.add_assoc] at hn ⊢
      exact ih h hn

theorem firstOffset?_ahead_none {chars front back : List Char} {offset offset' : Nat}
    (h : firstOffset? chars offset (front ++ back) = none) :
    firstOffset? chars offset' back = none := by
  rw [firstOffset?_eq_none_iff] at h ⊢
  intro k hk
  refine h (front.length + k) ?_
  rwa [List.drop_length_add_append]

namespace Candidate

/-- What is remembered of the token holds at the cursor. -/
def Sound (cur : Cursor) (c : Candidate) : Prop :=
  match c.sighting with
  | .unknown => True
  | .found n => cur.offset ≤ n → firstOffset? c.token.toList cur.offset cur.rest = some n
  | .never => firstOffset? c.token.toList cur.offset cur.rest = none

variable {cur next : Cursor} {c : Candidate}

theorem sound_search (cur : Cursor) (c : Candidate) : (c.search cur).Sound cur := by
  unfold search
  split
  · next n hn => exact fun _ => hn
  · next hn => exact hn

theorem Sound.ahead (h : c.Sound cur) (ha : cur.Ahead next) : c.Sound next := by
  obtain ⟨front, _, hr, ho⟩ := ha
  unfold Sound at h ⊢
  split
  · trivial
  · next n hc =>
    intro hn
    rw [hc, hr] at h
    rw [ho] at hn ⊢
    exact firstOffset?_ahead (h (by omega)) hn
  · next hc =>
    rw [hc, hr] at h
    exact firstOffset?_ahead_none h

theorem Sound.refresh_eq (h : c.Sound cur) : c.refresh cur = c.search cur := by
  obtain ⟨token, sighting⟩ := c
  cases sighting with
  | unknown => rfl
  | found n =>
    unfold refresh
    dsimp only
    split
    · next hn => rw [search, h hn]
    · rfl
  | never =>
    have hn : firstOffset? token.toList cur.offset cur.rest = none := h
    rw [search, hn]
    rfl

theorem token_search (cur : Cursor) (c : Candidate) : (c.search cur).token = c.token := by
  unfold search
  split <;> rfl

end Candidate

/-- Candidates for the given tokens of which nothing false is remembered. -/
structure Remembered (tokens : List String) (cur : Cursor) (cs : List Candidate) : Prop where
  tokens_eq : cs.map (·.token) = tokens
  sound : ∀ c ∈ cs, c.Sound cur

namespace Remembered

variable {tokens : List String} {cur next : Cursor} {cs : List Candidate}

theorem ofTokens (tokens : List String) (cur : Cursor) :
    Remembered tokens cur (Candidate.ofTokens tokens) where
  tokens_eq := by simp [Candidate.ofTokens, Function.comp_def]
  sound := by
    intro c hc
    obtain ⟨u, _, rfl⟩ := List.mem_map.1 hc
    trivial

theorem map_refresh (h : Remembered tokens cur cs) :
    cs.map (·.refresh cur) = cs.map (·.search cur) :=
  List.map_congr_left fun c hc => (h.sound c hc).refresh_eq

theorem refreshed (h : Remembered tokens cur cs) :
    Remembered tokens cur (cs.map (·.refresh cur)) where
  tokens_eq := by
    rw [h.map_refresh, ← h.tokens_eq, List.map_map]
    exact List.map_congr_left fun c _ => Candidate.token_search cur c
  sound := by
    intro c hc
    rw [h.map_refresh] at hc
    obtain ⟨c', _, rfl⟩ := List.mem_map.1 hc
    exact Candidate.sound_search cur c'

theorem ahead (h : Remembered tokens cur cs) (ha : cur.Ahead next) : Remembered tokens next cs :=
  ⟨h.tokens_eq, fun c hc => (h.sound c hc).ahead ha⟩

theorem earliest_eq (h : Remembered tokens cur cs) :
    Candidate.earliest (cs.map (·.refresh cur)) = cur.earliest tokens := by
  rw [h.map_refresh, Cursor.earliest_eq, Candidate.earliest, List.filterMap_map, ← h.tokens_eq,
    Cursor.occurrences, List.filterMap_map]
  congr 2
  funext c
  exact Candidate.occurrence?_search cur c

end Remembered

/-! ### The scan that remembers nothing -/

def Lexed.cons (l : Lexeme) (r : Lexed) : Lexed := { r with lexemes := l :: r.lexemes }

namespace TokenTable

/-- Scans a text with a search for every token at every place. -/
def scanAfresh (t : TokenTable) (s : Surface) (cur : Cursor) : Except Error Lexed :=
  if _h : cur.rest = [] then .ok ⟨[], ""⟩
  else
    match Occurrence.earliest (cur.occurrences t.allTokens) with
    | none => .ok ⟨[], String.ofList cur.rest⟩
    | some o =>
      match (t.opcodeOf? o.token).bind s.regionOpenedBy with
      | none => (t.scanAfresh s (cur.behind o)).map (.cons ⟨o.token, none, o.offset⟩)
      | some region =>
        let closers := (t.aliases? region.closer).getD []
        match region.kind, Occurrence.earliest ((cur.behind o).occurrences closers) with
        | .literal, some close =>
          let text := (cur.behind o).textWithin (close.offset - (cur.behind o).offset)
          (t.scanAfresh s ((cur.behind o).behind close)).map (.cons ⟨o.token, some text, o.offset⟩)
        | .literal, none => t.scanAfresh s (cur.behind o)
        | .comment, some close => t.scanAfresh s ((cur.behind o).behind close)
        | .comment, none => .error (.unterminatedComment o.offset)
termination_by cur.rest.length
decreasing_by
  · exact length_rest_behind_lt cur o _h
  · exact Nat.lt_of_le_of_lt (length_rest_behind_le _ close) (length_rest_behind_lt cur o _h)
  · exact length_rest_behind_lt cur o _h
  · exact Nat.lt_of_le_of_lt (length_rest_behind_le _ close) (length_rest_behind_lt cur o _h)

theorem empty_not_mem_allTokens (t : TokenTable) : "" ∉ t.allTokens := by
  intro h
  obtain ⟨e, he, hm⟩ := List.mem_flatMap.1 h
  exact (t.entries_wellFormed e he).2 hm

theorem empty_not_mem_aliases (t : TokenTable) (op : Opcode) : "" ∉ (t.aliases? op).getD [] := by
  intro h
  unfold aliases? at h
  cases hf : t.entries.find? fun e => e.op == op with
  | none => simp [hf] at h
  | some e =>
    rw [hf] at h
    exact (t.entries_wellFormed e (List.mem_of_find?_eq_some hf)).2 h

section

variable {t : TokenTable} {s : Surface} {cur next : Cursor} {o : Occurrence}
  {opened : Option Region} {l : Lexeme}

theorem scanAfresh_end (h : cur.rest = []) : t.scanAfresh s cur = .ok ⟨[], ""⟩ := by
  rw [scanAfresh, dif_pos h]

theorem scanAfresh_none (h : cur.rest ≠ []) (ho : cur.earliest t.allTokens = none) :
    t.scanAfresh s cur = .ok ⟨[], String.ofList cur.rest⟩ := by
  rw [scanAfresh, dif_neg h, ← Cursor.earliest_eq, ho]

theorem scanAfresh_of_earliest_none (ho : cur.earliest t.allTokens = none) :
    t.scanAfresh s cur = .ok ⟨[], String.ofList cur.rest⟩ := by
  by_cases h : cur.rest = []
  · rw [scanAfresh_end h, h, String.ofList_nil]
  · exact scanAfresh_none h ho

theorem rest_ne_nil_of_earliest (ho : cur.earliest t.allTokens = some o) : cur.rest ≠ [] := by
  intro h
  have hl := (Cursor.ahead_behind t.empty_not_mem_allTokens ho).length_lt
  rw [h] at hl
  exact Nat.not_lt_zero _ hl

/-- A token that is found in the text has an opcode, so a step that looks it up does not fail. -/
theorem scanStep_of_earliest (ho : cur.earliest t.allTokens = some o) :
    t.scanStep s cur o = t.stepAt cur o ((t.opcodeOf? o.token).bind s.regionOpenedBy) := by
  obtain ⟨_, _, hf, _⟩ := Cursor.firstToken_of_earliest ho
  obtain ⟨op, hop⟩ := opcodeOf?_of_mem hf.mem
  rw [scanStep, opcodeOf, hop]
  rfl

theorem scanAfresh_some (ho : cur.earliest t.allTokens = some o) :
    t.scanAfresh s cur =
      match t.stepAt cur o ((t.opcodeOf? o.token).bind s.regionOpenedBy) with
      | .ok ⟨some l, next⟩ => (t.scanAfresh s next).map (.cons l)
      | .ok ⟨none, next⟩ => t.scanAfresh s next
      | .error e => .error e := by
  rw [scanAfresh, dif_neg (rest_ne_nil_of_earliest ho), ← Cursor.earliest_eq, ho]
  unfold stepAt
  dsimp only
  cases (t.opcodeOf? o.token).bind s.regionOpenedBy with
  | none => rfl
  | some region =>
    dsimp only
    rw [← Cursor.earliest_eq]
    cases region.kind <;>
      cases (cur.behind o).earliest ((t.aliases? region.closer).getD []) <;> rfl

section

variable (ho : cur.earliest t.allTokens = some o)
  (hr : (t.opcodeOf? o.token).bind s.regionOpenedBy = opened)
include ho hr

theorem scanAfresh_lexeme (hs : t.stepAt cur o opened = .ok ⟨some l, next⟩) :
    t.scanAfresh s cur = (t.scanAfresh s next).map (.cons l) := by
  rw [scanAfresh_some ho, hr, hs]

theorem scanAfresh_skip (hs : t.stepAt cur o opened = .ok ⟨none, next⟩) :
    t.scanAfresh s cur = t.scanAfresh s next := by
  rw [scanAfresh_some ho, hr, hs]

theorem scanAfresh_error {e : Error} (hs : t.stepAt cur o opened = .error e) :
    t.scanAfresh s cur = .error e := by
  rw [scanAfresh_some ho, hr, hs]

end

end

/-! ### Steps at a first token -/

section

variable {t : TokenTable} {s : Surface} {cur : Cursor} {skipped back : List Char} {u : String}

theorem scanAfresh_plain (hf : FirstToken t.allTokens cur.rest skipped u back)
    (hne : u.toList ≠ []) (hr : (t.opcodeOf? u).bind s.regionOpenedBy = none) :
    t.scanAfresh s cur =
      (t.scanAfresh s ⟨cur.offset + byteLength (skipped ++ u.toList), back⟩).map
        (.cons ⟨u, none, cur.offset + byteLength skipped⟩) := by
  rw [scanAfresh_lexeme hf.earliest_eq hr stepAt_none, hf.behind_eq hne]

theorem scanAfresh_literal (hf : FirstToken t.allTokens cur.rest skipped u back)
    (hne : u.toList ≠ []) {region : Region}
    (hr : (t.opcodeOf? u).bind s.regionOpenedBy = some region) (hk : region.kind = .literal)
    {text back' : List Char} {close : String}
    (hc : FirstToken ((t.aliases? region.closer).getD []) back text close back')
    (hce : close.toList ≠ []) :
    t.scanAfresh s cur =
      (t.scanAfresh s
        ⟨cur.offset + byteLength (skipped ++ u.toList) + byteLength (text ++ close.toList),
          back'⟩).map
        (.cons ⟨u, some (String.ofList text), cur.offset + byteLength skipped⟩) := by
  have hi : FirstToken ((t.aliases? region.closer).getD [])
      (⟨cur.offset + byteLength (skipped ++ u.toList), back⟩ : Cursor).rest text close back' := hc
  have hbehind := hf.behind_eq hne
  have hclose := hi.earliest_eq
  rw [← hbehind] at hclose
  rw [scanAfresh_lexeme hf.earliest_eq hr (stepAt_literal hk hclose), hbehind, hi.behind_eq hce,
    hi.textWithin_eq]

end

/-! ### Both scans agree -/

section

variable {t : TokenTable} {s : Surface} {cur : Cursor} {o : Occurrence} {step : ScanStep}

theorem ahead_scanStep (ho : cur.earliest t.allTokens = some o)
    (hs : t.scanStep s cur o = .ok step) : cur.Ahead step.next := by
  have hb := Cursor.ahead_behind t.empty_not_mem_allTokens ho
  rcases next_of_scanStep hs with hn | ⟨op, close, hc, hn⟩
  · rwa [hn]
  · rw [hn]
    exact hb.trans (Cursor.ahead_behind (t.empty_not_mem_aliases op) hc)

theorem scanFrom_some {cs : List Candidate} {found : List Lexeme} (h : cur.rest ≠ [])
    (ho : Candidate.earliest (cs.map (·.refresh cur)) = some o) :
    t.scanFrom s cs found cur =
      match t.scanStep s cur o with
      | .ok step =>
        t.scanFrom s (cs.map (·.refresh cur)) (step.lexeme?.toList ++ found) step.next
      | .error e => .error e := by
  rw [scanFrom, dif_neg h]
  simp only [ho]
  split <;> simp_all

theorem scanFrom_eq_scanAfresh {cs : List Candidate} {found : List Lexeme}
    (hc : Remembered t.allTokens cur cs) :
    t.scanFrom s cs found cur =
      (t.scanAfresh s cur).map fun r => { r with lexemes := found.reverse ++ r.lexemes } := by
  induction cur using Cursor.ahead_induction generalizing cs found with
  | step cur ih =>
    by_cases hr : cur.rest = []
    · rw [scanFrom, dif_pos hr, scanAfresh_end hr]
      simp [Except.map]
    · have he := hc.earliest_eq
      cases ho : cur.earliest t.allTokens with
      | none =>
        rw [ho] at he
        rw [scanFrom, dif_neg hr, scanAfresh_none hr ho]
        simp [he, Except.map]
      | some o =>
        rw [ho] at he
        rw [scanFrom_some hr he, scanAfresh_some ho, ← scanStep_of_earliest ho]
        -- What was refreshed here stays sound wherever the step takes the cursor.
        cases hs : t.scanStep s cur o with
        | error e => rfl
        | ok step =>
          have ha := ahead_scanStep ho hs
          dsimp only
          rw [ih step.next ha (hc.refreshed.ahead ha)]
          obtain ⟨_ | l, next⟩ := step
          · rfl
          · dsimp only
            cases t.scanAfresh s next with
            | error e => rfl
            | ok r => simp [Except.map, Lexed.cons]

theorem scan_eq_scanAfresh (t : TokenTable) (s : Surface) (source : String) :
    t.scan s source = t.scanAfresh s (Cursor.ofText source) := by
  rw [scan, scanFrom_eq_scanAfresh (Remembered.ofTokens _ _)]
  cases t.scanAfresh s (Cursor.ofText source) <;> rfl

end

/-- What a scan remembers of the tokens changes neither its lexemes nor the trailing text nor the
comment that it finds unterminated. -/
theorem lex_eq_scanAfresh (t : TokenTable) {s : Surface} (hs : s.mode = .scan)
    (source : String) : t.lex s source = t.scanAfresh s (Cursor.ofText source) := by
  rw [lex, hs]
  exact scan_eq_scanAfresh t s source

/-- A table without the opcodes of comments, and a surface on which comments are regions. The last
token opens a literal that is never closed. -/
theorem lex_eq_scanAfresh_without_comments :
    let t := declare [⟨.inc, ["+", "++"]⟩, ⟨.buf, ["<"]⟩, ⟨.endBuf, [">"]⟩] (by decide)
    let s : Surface := { regions := [⟨.com, .endCom, .comment⟩, ⟨.buf, .endBuf, .literal⟩] }
    let lexed : Lexed := ⟨[⟨"++", none, 0⟩, ⟨"+", none, 2⟩, ⟨"<", some "+", 3⟩], ""⟩
    s.mode = .scan ∧ t.lex s "+++<+>#<" = .ok lexed ∧
      t.scanAfresh s (Cursor.ofText "+++<+>#<") = .ok lexed := by
  intro t s lexed
  have hplus : ∀ u ∈ ["+", "++"], (t.opcodeOf? u).bind s.regionOpenedBy = none := by
    simp only [opcodeOf?_eq_lookup]
    decide
  have hopening : (t.opcodeOf? "<").bind s.regionOpenedBy = some ⟨.buf, .endBuf, .literal⟩ := by
    simp only [opcodeOf?_eq_lookup]
    decide
  have hend : t.scanAfresh s ⟨8, []⟩ = .ok ⟨[], ""⟩ := scanAfresh_end rfl
  have hunclosed : t.scanAfresh s ⟨6, ['#', '<']⟩ = .ok ⟨[], ""⟩ :=
    (scanAfresh_skip (o := ⟨7, "<"⟩) (by decide +kernel) hopening (by decide +kernel)).trans hend
  have hliteral : t.scanAfresh s ⟨3, ['<', '+', '>', '#', '<']⟩ =
      .ok ⟨[⟨"<", some "+", 3⟩], ""⟩ :=
    (scanAfresh_lexeme (o := ⟨3, "<"⟩) (by decide +kernel) hopening (by decide +kernel)).trans
      (congrArg (Except.map (Lexed.cons ⟨"<", some "+", 3⟩)) hunclosed)
  have hsecond : t.scanAfresh s ⟨2, ['+', '<', '+', '>', '#', '<']⟩ =
      .ok ⟨[⟨"+", none, 2⟩, ⟨"<", some "+", 3⟩], ""⟩ :=
    (scanAfresh_lexeme (o := ⟨2, "+"⟩) (by decide +kernel) (hplus _ (by decide))
      (by decide +kernel)).trans (congrArg (Except.map (Lexed.cons ⟨"+", none, 2⟩)) hliteral)
  have hscan : t.scanAfresh s (Cursor.ofText "+++<+>#<") = .ok lexed :=
    (scanAfresh_lexeme (o := ⟨0, "++"⟩) (by decide +kernel) (hplus _ (by decide))
      (by decide +kernel)).trans (congrArg (Except.map (Lexed.cons ⟨"++", none, 0⟩)) hsecond)
  exact ⟨rfl, (lex_eq_scanAfresh t rfl _).trans hscan, hscan⟩

end TokenTable

end TapeDialects
