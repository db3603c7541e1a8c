import TapeDialects.Proofs.Source.Standing

/-!
# Scans by places

The scan of a text as a relation (`Scans`), which speaks of the places of tokens in the source and
not of how they are found: at each byte the first token at or behind it counts, the longest of
those at its place, and the scan goes on where the token, or the region that it opens, stops. The
scan of a source answers as the relation says (`lex_eq_iff_scans`).
-/

namespace TapeDialects

open Cursor (byteLength byteLength_toList)

/-- At byte `n` of the source stands `text` and behind it `close`, the first of the tokens. -/
structure ClosedBy (tokens : List String) (source : String) (n : Nat) (text : String)
    (close : Occurrence) : Prop where
  first : FirstAt tokens source n close
  stands : StandsAt source n text
  meets : n + text.utf8ByteSize = close.offset

instance (tokens : List String) (source : String) (n : Nat) (text : String) (close : Occurrence) :
    Decidable (ClosedBy tokens source n text close) :=
  decidable_of_iff (FirstAt tokens source n close ∧ StandsAt source n text ∧
    n + text.utf8ByteSize = close.offset) ⟨fun ⟨h, h', h''⟩ => ⟨h, h', h''⟩, fun h => ⟨h.1, h.2, h.3⟩⟩

section

variable {tokens : List String} {source text text' : String} {n : Nat} {close : Occurrence}
  {cur : Cursor}

theorem ClosedBy.text_unique (h : ClosedBy tokens source n text close)
    (h' : ClosedBy tokens source n text' close) : text = text' := by
  have hm := h.meets
  have hm' := h'.meets
  exact h.stands.unique h'.stands (by omega)

theorem closedBy_of_earliest (h : cur.In source) (ho : cur.earliest tokens = some close) :
    ClosedBy tokens source cur.offset (cur.textWithin (close.offset - cur.offset)) close := by
  obtain ⟨skipped, back, hf, hoff⟩ := Cursor.firstToken_of_earliest ho
  have htext : cur.textWithin (close.offset - cur.offset) = String.ofList skipped := by
    rw [hoff, hf.textWithin_eq]
  rw [htext]
  refine ⟨h.firstAt_of_earliest ho, ⟨close.token.toList ++ back, ?_⟩, ?_⟩
  · rw [String.toList_ofList, ← hf.text_eq]
    exact h
  · rw [hoff, ← byteLength_toList, String.toList_ofList]

/-- What closes a text is the first token in what follows it. -/
theorem ClosedBy.exists_firstToken (h : ClosedBy tokens source n text close) :
    ∃ back, FirstToken tokens (text.toList ++ (close.token.toList ++ back)) text.toList close.token
      back := by
  obtain ⟨tail, hcut⟩ := h.stands
  let behind : Cursor := ⟨n, text.toList ++ tail⟩
  have hin : behind.In source := hcut
  have ho : behind.earliest tokens = some close := hin.earliest_eq_some_iff.2 h.first
  obtain ⟨skipped, back, hf, hoff⟩ := Cursor.firstToken_of_earliest ho
  have htext := (closedBy_of_earliest hin ho).text_unique h
  rw [hoff, hf.textWithin_eq] at htext
  rw [← htext, String.toList_ofList]
  exact ⟨back, hf.text_eq ▸ hf⟩

end

namespace TokenTable

/-- The answer of a scan of the source that goes on at byte `n`. -/
inductive Scans (t : TokenTable) (s : Surface) (source : String) :
    (n : Nat) → Except Error Lexed → Prop where
  | rest {n : Nat} {tail : List Char} (noneLeft : NoneFrom t.allTokens source n)
      (cut : TailFrom source n tail) :
      Scans t s source n (.ok ⟨[], String.ofList tail⟩)
  | plain {n : Nat} {o : Occurrence} {answer : Except Error Lexed}
      (first : FirstAt t.allTokens source n o)
      (opens : (t.opcodeOf? o.token).bind s.regionOpenedBy = none)
      (more : Scans t s source o.stop answer) :
      Scans t s source n (answer.map (.cons ⟨o.token, none, o.offset⟩))
  | literal {n : Nat} {o close : Occurrence} {region : Region} {text : String}
      {answer : Except Error Lexed} (first : FirstAt t.allTokens source n o)
      (opens : (t.opcodeOf? o.token).bind s.regionOpenedBy = some region)
      (kind : region.kind = .literal)
      (closed : ClosedBy ((t.aliases? region.closer).getD []) source o.stop text close)
      (more : Scans t s source close.stop answer) :
      Scans t s source n (answer.map (.cons ⟨o.token, some text, o.offset⟩))
  | unclosed {n : Nat} {o : Occurrence} {region : Region} {answer : Except Error Lexed}
      (first : FirstAt t.allTokens source n o)
      (opens : (t.opcodeOf? o.token).bind s.regionOpenedBy = some region)
      (kind : region.kind = .literal)
      (open_ended : NoneFrom ((t.aliases? region.closer).getD []) source o.stop)
      (more : Scans t s source o.stop answer) :
      Scans t s source n answer
  | comment {n : Nat} {o close : Occurrence} {region : Region} {text : String}
      {answer : Except Error Lexed} (first : FirstAt t.allTokens source n o)
      (opens : (t.opcodeOf? o.token).bind s.regionOpenedBy = some region)
      (kind : region.kind = .comment)
      (closed : ClosedBy ((t.aliases? region.closer).getD []) source o.stop text close)
      (more : Scans t s source close.stop answer) :
      Scans t s source n answer
  | unterminated {n : Nat} {o : Occurrence} {region : Region}
      (first : FirstAt t.allTokens source n o)
      (opens : (t.opcodeOf? o.token).bind s.regionOpenedBy = some region)
      (kind : region.kind = .comment)
      (open_ended : NoneFrom ((t.aliases? region.closer).getD []) source o.stop) :
      Scans t s source n (.error (.unterminatedComment o.offset))

/-- At byte `n` of the source stands a token that opens a comment, the longest token there, and no
token that closes the comment stands behind it. -/
def UnclosedComment (t : TokenTable) (s : Surface) (source : String) (n : Nat) : Prop :=
  ∃ token ∈ t.allTokens, StandsAt source n token ∧
    (∀ u ∈ t.allTokens, StandsAt source n u → u.utf8ByteSize ≤ token.utf8ByteSize) ∧
    ∃ op, t.opcodeOf? token = some op ∧
      ∃ region, s.regionOpenedBy op = some region ∧ region.kind = .comment ∧
        NoneFrom ((t.aliases? region.closer).getD []) source (n + token.utf8ByteSize)

variable {t : TokenTable} {s : Surface} {source : String} {cur : Cursor} {o : Occurrence}

theorem scans_scanAfresh (h : cur.In source) :
    t.Scans s source cur.offset (t.scanAfresh s cur) := by
  induction cur using Cursor.ahead_induction with
  | step cur ih =>
    cases ho : cur.earliest t.allTokens with
    | none =>
      rw [scanAfresh_of_earliest_none ho]
      exact .rest (h.earliest_eq_none_iff.1 ho) h
    | some o =>
      have first := h.firstAt_of_earliest ho
      have ha := Cursor.ahead_behind t.empty_not_mem_allTokens ho
      obtain ⟨hin, hoff⟩ := h.behind t.empty_not_mem_allTokens ho
      cases opens : (t.opcodeOf? o.token).bind s.regionOpenedBy with
      | none =>
        have more := ih _ ha hin
        rw [hoff] at more
        rw [scanAfresh_lexeme ho opens stepAt_none]
        exact .plain first opens more
      | some region =>
        have hne := t.empty_not_mem_aliases region.closer
        cases hc : (cur.behind o).earliest ((t.aliases? region.closer).getD []) with
        | none =>
          have hnone := hin.earliest_eq_none_iff.1 hc
          rw [hoff] at hnone
          cases kind : region.kind with
          | literal =>
            have more := ih _ ha hin
            rw [hoff] at more
            rw [scanAfresh_skip ho opens (stepAt_unclosed kind hc)]
            exact .unclosed first opens kind hnone more
          | comment =>
            rw [scanAfresh_error ho opens (stepAt_unterminated kind hc)]
            exact .unterminated first opens kind hnone
        | some close =>
          have closed := closedBy_of_earliest hin hc
          rw [hoff] at closed
          obtain ⟨hin', hoff'⟩ := hin.behind hne hc
          have more := ih _ (ha.trans (Cursor.ahead_behind hne hc)) hin'
          rw [hoff'] at more
          cases kind : region.kind with
          | literal =>
            rw [scanAfresh_lexeme ho opens (stepAt_literal kind hc)]
            exact hoff ▸ .literal first opens kind closed more
          | comment =>
            rw [scanAfresh_skip ho opens (stepAt_comment kind hc)]
            exact .comment first opens kind closed more

/-- The relation leaves a scan no choice. -/
theorem scanAfresh_of_scans {n : Nat} {answer : Except Error Lexed}
    (h : t.Scans s source n answer) (hin : cur.In source) (hn : cur.offset = n) :
    t.scanAfresh s cur = answer := by
  induction h generalizing cur with
  | rest noneLeft cut =>
    subst hn
    have ho := hin.earliest_eq_none_iff.2 noneLeft
    rw [scanAfresh_of_earliest_none ho, TailFrom.unique hin cut]
  | plain first opens more ih =>
    subst hn
    obtain ⟨ho, hin', hoff⟩ := hin.found_of_firstAt t.empty_not_mem_allTokens first
    rw [scanAfresh_lexeme ho opens stepAt_none, ih hin' hoff]
  | @literal n o close region text answer first opens kind closed more ih =>
    subst hn
    obtain ⟨ho, hin', hoff⟩ := hin.found_of_firstAt t.empty_not_mem_allTokens first
    obtain ⟨hc, hin'', hoff'⟩ :=
      hin'.found_of_firstAt (t.empty_not_mem_aliases region.closer) (hoff ▸ closed.first)
    have htext := (closedBy_of_earliest hin' hc).text_unique (hoff ▸ closed)
    rw [scanAfresh_lexeme ho opens (stepAt_literal kind hc), ih hin'' hoff', htext]
  | @unclosed n o region answer first opens kind open_ended more ih =>
    subst hn
    obtain ⟨ho, hin', hoff⟩ := hin.found_of_firstAt t.empty_not_mem_allTokens first
    have hc := hin'.earliest_eq_none_iff.2 (hoff ▸ open_ended)
    exact (scanAfresh_skip ho opens (stepAt_unclosed kind hc)).trans (ih hin' hoff)
  | @comment n o close region text answer first opens kind closed more ih =>
    subst hn
    obtain ⟨ho, hin', hoff⟩ := hin.found_of_firstAt t.empty_not_mem_allTokens first
    obtain ⟨hc, hin'', hoff'⟩ :=
      hin'.found_of_firstAt (t.empty_not_mem_aliases region.closer) (hoff ▸ closed.first)
    exact (scanAfresh_skip ho opens (stepAt_comment kind hc)).trans (ih hin'' hoff')
  | @unterminated n o region first opens kind open_ended =>
    subst hn
    obtain ⟨ho, hin', hoff⟩ := hin.found_of_firstAt t.empty_not_mem_allTokens first
    have hc := hin'.earliest_eq_none_iff.2 (hoff ▸ open_ended)
    exact scanAfresh_error ho opens (stepAt_unterminated kind hc)

theorem lex_eq_iff_scans (hm : s.mode = .scan) {source : String} {answer : Except Error Lexed} :
    t.lex s source = answer ↔ t.Scans s source 0 answer := by
  have hlex : t.lex s source = t.scanAfresh s (Cursor.ofText source) := by
    rw [lex, hm]
    exact scan_eq_scanAfresh t s source
  rw [hlex]
  constructor
  · rintro rfl
    exact scans_scanAfresh (Cursor.in_ofText source)
  · exact fun h => scanAfresh_of_scans h (Cursor.in_ofText source) rfl

/-- A scan fails at a comment that is never closed, and nowhere else. -/
theorem unclosedComment_of_scans {n : Nat} {e : Error} (h : t.Scans s source n (.error e)) :
    ∃ o, e = .unterminatedComment o ∧ t.UnclosedComment s source o := by
  generalize ha : Except.error e = answer at h
  induction h with
  | rest => contradiction
  | @plain n o answer first opens more ih =>
    cases answer with
    | error e' =>
      cases ha
      exact ih rfl
    | ok r => contradiction
  | @literal n o close region text answer first opens kind closed more ih =>
    cases answer with
    | error e' =>
      cases ha
      exact ih rfl
    | ok r => contradiction
  | unclosed first opens kind open_ended more ih => exact ih ha
  | comment first opens kind closed more ih => exact ih ha
  | @unterminated n o region first opens kind open_ended =>
    cases ha
    obtain ⟨op, hop, hregion⟩ := Option.bind_eq_some_iff.1 opens
    exact ⟨o.offset, rfl, o.token, first.mem, first.stands, first.longest, op, hop, region, hregion,
      kind, open_ended⟩

end TokenTable

end TapeDialects
