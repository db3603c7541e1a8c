import TapeDialects.Proofs.Source.Scans
import TapeDialects.Proofs.TokenTable.Lookup

/-!
# Extents of lexemes

What a source looks like to a scan that succeeds: lexemes with their extents, one behind the other
and none reaching into the next, each of them cut out of the source, and a trailing text behind the
last one that holds no token (`TokenTable.Layout`). Without regions, the lexemes are those that
cut the source at the first of its tokens each time, the longest of those at its place; this
alone determines them (`TokenTable.leftmostLongest_iff_scans`).
-/

namespace TapeDialects

/-- The place behind the token of a lexeme. -/
def Lexeme.stop (l : Lexeme) : Nat := l.offset + l.text.utf8ByteSize

/-- The place where the last of the lexemes stops, or `n` if there is none. -/
def lastStop : (n : Nat) → List Lexeme → Nat
  | n, [] => n
  | _, l :: ls => lastStop l.stop ls

theorem lastStop_eq_or (n : Nat) (ls : List Lexeme) :
    lastStop n ls = n ∨ ∃ l ∈ ls, lastStop n ls = l.stop := by
  induction ls generalizing n with
  | nil => exact .inl rfl
  | cons l ls ih =>
    rcases ih l.stop with h | ⟨l', hl', h⟩
    · exact .inr ⟨l, List.mem_cons_self .., h⟩
    · exact .inr ⟨l', List.mem_cons_of_mem l hl', h⟩

/-- A lexeme, with the place behind it and its region. -/
structure Extent where
  lexeme : Lexeme
  stop : Nat

namespace TokenTable

/-- The source holds the lexeme as far as its extent reaches: the token, and behind it the literal
that it opens and the first of the closing tokens, the longest of those at its place. -/
structure Holds (t : TokenTable) (s : Surface) (source : String) (e : Extent) : Prop where
  token_mem : e.lexeme.text ∈ t.allTokens
  stands : StandsAt source e.lexeme.offset e.lexeme.text
  literal_iff : e.lexeme.literal.isSome ↔
    ∃ region ∈ (t.opcodeOf? e.lexeme.text).bind s.regionOpenedBy, region.kind = .literal
  opens_literal : ∀ region ∈ (t.opcodeOf? e.lexeme.text).bind s.regionOpenedBy,
    region.kind = .literal
  plain : e.lexeme.literal = none → e.stop = e.lexeme.stop
  enclosed : ∀ text ∈ e.lexeme.literal,
    ∃ region ∈ (t.opcodeOf? e.lexeme.text).bind s.regionOpenedBy, ∃ close,
      ClosedBy ((t.aliases? region.closer).getD []) source e.lexeme.stop text close ∧
      e.stop = close.stop

/-- The answer of a scan of the source from byte `n` on, with the extents of its lexemes. -/
structure Layout (t : TokenTable) (s : Surface) (source : String) (n : Nat) (r : Lexed)
    (extents : List Extent) : Prop where
  lexemes_eq : extents.map (·.lexeme) = r.lexemes
  offsets_lt : r.lexemes.Pairwise fun l l' => l.offset < l'.offset
  from_le : ∀ e ∈ extents, n ≤ e.lexeme.offset
  holds : ∀ e ∈ extents, t.Holds s source e
  disjoint : extents.Pairwise fun e e' => e.stop ≤ e'.lexeme.offset
  trailing : ∃ m, n ≤ m ∧ (∀ e ∈ extents, e.stop ≤ m) ∧ TailFrom source m r.trailing.toList
  none_trailing : ∀ u ∈ t.allTokens, ¬ u.toList <:+: r.trailing.toList

/-- The lexemes cut the source at the first of its tokens each time, the longest of those at its
place: no token begins outside of them. -/
structure LeftmostLongest (t : TokenTable) (source : String) (n : Nat) (r : Lexed) : Prop where
  from_le : ∀ l ∈ r.lexemes, n ≤ l.offset
  token_mem : ∀ l ∈ r.lexemes, l.text ∈ t.allTokens
  plain : ∀ l ∈ r.lexemes, l.literal = none
  stands : ∀ l ∈ r.lexemes, StandsAt source l.offset l.text
  disjoint : r.lexemes.Pairwise fun l l' => l.stop ≤ l'.offset
  longest : ∀ l ∈ r.lexemes, ∀ u ∈ t.allTokens, StandsAt source l.offset u →
    u.utf8ByteSize ≤ l.text.utf8ByteSize
  covered : ∀ u ∈ t.allTokens, ∀ k, n ≤ k → StandsAt source k u →
    ∃ l ∈ r.lexemes, l.offset ≤ k ∧ k < l.stop
  trailing : TailFrom source (lastStop n r.lexemes) r.trailing.toList

variable {t : TokenTable} {s : Surface} {source : String} {n : Nat} {r : Lexed}

/-! ### Layouts -/

section

variable {e : Extent} {extents : List Extent}

theorem Holds.lt_stop (h : t.Holds s source e) : e.lexeme.offset < e.stop := by
  have hpos := utf8ByteSize_pos_of_mem t.empty_not_mem_allTokens h.token_mem
  have hstop : e.lexeme.stop = e.lexeme.offset + e.lexeme.text.utf8ByteSize := rfl
  cases hl : e.lexeme.literal with
  | none =>
    have := h.plain hl
    omega
  | some text =>
    obtain ⟨region, -, close, hc, hs⟩ := h.enclosed text hl
    have hle := hc.first.le
    have hclose : close.stop = close.offset + close.token.utf8ByteSize := rfl
    omega

theorem Layout.skip {m : Nat} (h : t.Layout s source m r extents) (hn : n ≤ m) :
    t.Layout s source n r extents :=
  { h with
    from_le := fun e he => Nat.le_trans hn (h.from_le e he)
    trailing := by
      obtain ⟨k, hk, hstop, htail⟩ := h.trailing
      exact ⟨k, Nat.le_trans hn hk, hstop, htail⟩ }

theorem Layout.cons (he : t.Holds s source e) (hn : n ≤ e.lexeme.offset)
    (h : t.Layout s source e.stop r extents) :
    t.Layout s source n (.cons e.lexeme r) (e :: extents) where
  lexemes_eq := by rw [List.map_cons, h.lexemes_eq]; rfl
  offsets_lt := by
    refine List.pairwise_cons.2 ⟨fun l hl => ?_, h.offsets_lt⟩
    rw [← h.lexemes_eq] at hl
    obtain ⟨e', he', rfl⟩ := List.mem_map.1 hl
    exact Nat.lt_of_lt_of_le he.lt_stop (h.from_le e' he')
  from_le := by
    have hstop := he.lt_stop
    refine List.forall_mem_cons.2 ⟨hn, fun e' he' => ?_⟩
    have := h.from_le e' he'
    omega
  holds := List.forall_mem_cons.2 ⟨he, h.holds⟩
  disjoint := List.pairwise_cons.2 ⟨h.from_le, h.disjoint⟩
  trailing := by
    obtain ⟨m, hm, hstop, htail⟩ := h.trailing
    have := he.lt_stop
    exact ⟨m, by omega, List.forall_mem_cons.2 ⟨hm, hstop⟩, htail⟩
  none_trailing := h.none_trailing

theorem holds_plain {o : Occurrence} (first : FirstAt t.allTokens source n o)
    (opens : (t.opcodeOf? o.token).bind s.regionOpenedBy = none) :
    t.Holds s source ⟨⟨o.token, none, o.offset⟩, o.stop⟩ where
  token_mem := first.mem
  stands := first.stands
  literal_iff := by simp [opens]
  opens_literal := by simp [opens]
  plain := fun _ => rfl
  enclosed := by simp

theorem holds_literal {o close : Occurrence} {region : Region} {text : String}
    (first : FirstAt t.allTokens source n o)
    (opens : (t.opcodeOf? o.token).bind s.regionOpenedBy = some region)
    (kind : region.kind = .literal)
    (closed : ClosedBy ((t.aliases? region.closer).getD []) source o.stop text close) :
    t.Holds s source ⟨⟨o.token, some text, o.offset⟩, close.stop⟩ where
  token_mem := first.mem
  stands := first.stands
  literal_iff := by simp [opens, kind]
  opens_literal := by simp [opens, kind]
  plain := by simp
  enclosed := by
    intro text' htext
    obtain rfl : text = text' := Option.some.inj htext
    exact ⟨region, opens, close, closed, rfl⟩

theorem exists_layout (h : t.Scans s source n (.ok r)) :
    ∃ extents, t.Layout s source n r extents := by
  generalize ha : Except.ok r = answer at h
  induction h generalizing r with
  | @rest n tail noneLeft cut =>
    cases ha
    rw [← String.toList_ofList (l := tail)] at cut
    refine ⟨[], rfl, .nil, by simp, by simp, .nil, ⟨n, Nat.le_refl n, by simp, cut⟩, ?_⟩
    intro u hu hi
    obtain ⟨k, hk, hs⟩ := cut.exists_standsAt hi
    exact noneLeft u hu k hk hs
  | @plain n o answer first opens more ih =>
    cases answer with
    | error e => contradiction
    | ok r' =>
      cases ha
      obtain ⟨extents, hl⟩ := ih rfl
      exact ⟨_, .cons (holds_plain first opens) first.le hl⟩
  | @literal n o close region text answer first opens kind closed more ih =>
    cases answer with
    | error e => contradiction
    | ok r' =>
      cases ha
      obtain ⟨extents, hl⟩ := ih rfl
      exact ⟨_, .cons (holds_literal first opens kind closed) first.le hl⟩
  | unclosed first opens kind open_ended more ih =>
    obtain ⟨extents, hl⟩ := ih ha
    exact ⟨extents, hl.skip first.le_stop⟩
  | comment first opens kind closed more ih =>
    obtain ⟨extents, hl⟩ := ih ha
    exact ⟨extents, hl.skip (Nat.le_trans first.le_stop closed.first.le_stop)⟩
  | unterminated => contradiction

end

/-- Each lexeme of a source that lexes has an extent. -/
theorem exists_holds_of_lex {l : Lexeme} (hm : s.mode = .scan) (h : t.lex s source = .ok r)
    (hl : l ∈ r.lexemes) : ∃ stop, t.Holds s source ⟨l, stop⟩ := by
  obtain ⟨extents, hlayout⟩ := exists_layout ((lex_eq_iff_scans hm).1 h)
  rw [← hlayout.lexemes_eq] at hl
  obtain ⟨e, he, rfl⟩ := List.mem_map.1 hl
  exact ⟨e.stop, hlayout.holds e he⟩

/-! ### The first and longest tokens -/

theorem leftmostLongest_iff : t.LeftmostLongest source n r ↔
    (∀ l ∈ r.lexemes, n ≤ l.offset ∧ l.text ∈ t.allTokens ∧ l.literal = none ∧
      StandsAt source l.offset l.text ∧ ∀ u ∈ t.allTokens, StandsAt source l.offset u →
        u.utf8ByteSize ≤ l.text.utf8ByteSize) ∧
    r.lexemes.Pairwise (fun l l' => l.stop ≤ l'.offset) ∧
    (∀ u ∈ t.allTokens, ∀ k < source.utf8ByteSize + 1, n ≤ k → StandsAt source k u →
      ∃ l ∈ r.lexemes, l.offset ≤ k ∧ k < l.stop) ∧
    TailFrom source (lastStop n r.lexemes) r.trailing.toList := by
  constructor
  · exact fun h => ⟨fun l hl => ⟨h.from_le l hl, h.token_mem l hl, h.plain l hl, h.stands l hl,
      h.longest l hl⟩, h.disjoint, fun u hu k _ => h.covered u hu k, h.trailing⟩
  · rintro ⟨hl, hd, hc, ht⟩
    exact ⟨fun l h => (hl l h).1, fun l h => (hl l h).2.1, fun l h => (hl l h).2.2.1,
      fun l h => (hl l h).2.2.2.1, hd, fun l h => (hl l h).2.2.2.2,
      fun u hu k hk hs => hc u hu k (Nat.lt_succ_of_le hs.le_size) hk hs, ht⟩

instance (t : TokenTable) (source : String) (n : Nat) (r : Lexed) :
    Decidable (t.LeftmostLongest source n r) :=
  decidable_of_iff _ leftmostLongest_iff.symm

theorem LeftmostLongest.firstAt {l : Lexeme} {ls : List Lexeme} {trailing : String}
    (h : t.LeftmostLongest source n ⟨l :: ls, trailing⟩) :
    FirstAt t.allTokens source n ⟨l.offset, l.text⟩ where
  mem := h.token_mem l (List.mem_cons_self ..)
  le := h.from_le l (List.mem_cons_self ..)
  stands := h.stands l (List.mem_cons_self ..)
  none_before := by
    intro u hu k hk hlt hs
    change k < l.offset at hlt
    obtain ⟨l', hl', hle, -⟩ := h.covered u hu k hk hs
    rcases List.mem_cons.1 hl' with rfl | hl'
    · omega
    · have hd : l.stop ≤ l'.offset := List.rel_of_pairwise_cons h.disjoint hl'
      unfold Lexeme.stop at hd
      omega
  longest := h.longest l (List.mem_cons_self ..)

theorem LeftmostLongest.tail {l : Lexeme} {ls : List Lexeme} {trailing : String}
    (h : t.LeftmostLongest source n ⟨l :: ls, trailing⟩) :
    t.LeftmostLongest source l.stop ⟨ls, trailing⟩ where
  from_le := (List.pairwise_cons.1 h.disjoint).1
  token_mem := fun l' hl' => h.token_mem l' (List.mem_cons_of_mem l hl')
  plain := fun l' hl' => h.plain l' (List.mem_cons_of_mem l hl')
  stands := fun l' hl' => h.stands l' (List.mem_cons_of_mem l hl')
  disjoint := (List.pairwise_cons.1 h.disjoint).2
  longest := fun l' hl' => h.longest l' (List.mem_cons_of_mem l hl')
  covered := by
    intro u hu k hk hs
    have hn : n ≤ l.stop := h.firstAt.le_stop
    obtain ⟨l', hl', hle, hlt⟩ := h.covered u hu k (Nat.le_trans hn hk) hs
    rcases List.mem_cons.1 hl' with rfl | hl'
    · omega
    · exact ⟨l', hl', hle, hlt⟩
  trailing := h.trailing

theorem LeftmostLongest.cons {o : Occurrence} (first : FirstAt t.allTokens source n o)
    (h : t.LeftmostLongest source o.stop r) :
    t.LeftmostLongest source n (.cons ⟨o.token, none, o.offset⟩ r) where
  from_le := List.forall_mem_cons.2
    ⟨first.le, fun l hl => Nat.le_trans first.le_stop (h.from_le l hl)⟩
  token_mem := List.forall_mem_cons.2 ⟨first.mem, h.token_mem⟩
  plain := List.forall_mem_cons.2 ⟨rfl, h.plain⟩
  stands := List.forall_mem_cons.2 ⟨first.stands, h.stands⟩
  disjoint := List.pairwise_cons.2 ⟨h.from_le, h.disjoint⟩
  longest := List.forall_mem_cons.2 ⟨first.longest, h.longest⟩
  covered := by
    intro u hu k hk hs
    rcases Nat.lt_or_ge k o.offset with hlt | hge
    · exact absurd hs (first.none_before u hu k hk hlt)
    · rcases Nat.lt_or_ge k o.stop with hlt | hge'
      · exact ⟨_, List.mem_cons_self .., hge, hlt⟩
      · obtain ⟨l, hl, hspan⟩ := h.covered u hu k hge' hs
        exact ⟨l, List.mem_cons_of_mem _ hl, hspan⟩
  trailing := h.trailing

theorem opens_none_of_no_regions (hr : s.regions = []) (u : String) :
    (t.opcodeOf? u).bind s.regionOpenedBy = none := by
  cases t.opcodeOf? u with
  | none => rfl
  | some op => simp [Surface.regionOpenedBy, hr]

theorem scans_of_leftmostLongest (hr : s.regions = [])
    (h : t.LeftmostLongest source n r) : t.Scans s source n (.ok r) := by
  obtain ⟨ls, trailing⟩ := r
  induction ls generalizing n with
  | nil =>
    have hnone : NoneFrom t.allTokens source n := by
      intro u hu k hk hs
      obtain ⟨l, hl, -⟩ := h.covered u hu k hk hs
      contradiction
    have hs := Scans.rest (s := s) hnone h.trailing
    rwa [String.ofList_toList] at hs
  | cons l ls ih =>
    have hplain : l.literal = none := h.plain l (List.mem_cons_self ..)
    have hs := Scans.plain h.firstAt (opens_none_of_no_regions hr l.text) (ih h.tail)
    rwa [← hplain] at hs

theorem leftmostLongest_of_scans (hr : s.regions = [])
    (h : t.Scans s source n (.ok r)) : t.LeftmostLongest source n r := by
  generalize ha : Except.ok r = answer at h
  induction h generalizing r with
  | @rest n tail noneLeft cut =>
    cases ha
    rw [← String.toList_ofList (l := tail)] at cut
    exact ⟨by simp, by simp, by simp, by simp, .nil, by simp,
      fun u hu k hk hs => absurd hs (noneLeft u hu k hk), cut⟩
  | @plain n o answer first opens more ih =>
    cases answer with
    | error e => contradiction
    | ok r' =>
      cases ha
      exact .cons first (ih rfl)
  | literal first opens => simp [opens_none_of_no_regions hr] at opens
  | unclosed first opens => simp [opens_none_of_no_regions hr] at opens
  | comment first opens => simp [opens_none_of_no_regions hr] at opens
  | unterminated => contradiction

/-- Without regions, a scan finds what cuts the source at the first and longest tokens, and nothing
else does. -/
theorem leftmostLongest_iff_scans (hr : s.regions = []) :
    t.LeftmostLongest source n r ↔ t.Scans s source n (.ok r) :=
  ⟨scans_of_leftmostLongest hr, leftmostLongest_of_scans hr⟩

theorem lex_eq_ok_iff (hm : s.mode = .scan) (hr : s.regions = []) :
    t.lex s source = .ok r ↔ t.LeftmostLongest source 0 r := by
  rw [lex_eq_iff_scans hm, leftmostLongest_iff_scans hr]

theorem exists_lex_eq_ok (hm : s.mode = .scan) (hr : s.regions = []) (source : String) :
    ∃ r, t.lex s source = .ok r := by
  cases h : t.lex s source with
  | ok r => exact ⟨r, rfl⟩
  | error e =>
    obtain ⟨o, -, token, -, -, -, op, -, region, hregion, -⟩ :=
      unclosedComment_of_scans ((lex_eq_iff_scans hm).1 h)
    simp [Surface.regionOpenedBy, hr] at hregion

/-- The lexemes of a source lie in it one behind the other, each with the literal that it opens, and
no token stands in the trailing text. Without regions, they are the only ones that cut the source
at the first and longest of its tokens, and the trailing text begins where the last one stops. -/
theorem layout_of_lex (hm : s.mode = .scan) (h : t.lex s source = .ok r) :
    (∃ extents, t.Layout s source 0 r extents) ∧
      (s.regions = [] → ∀ r', t.LeftmostLongest source 0 r' ↔ r' = r) := by
  have hs := (lex_eq_iff_scans hm).1 h
  refine ⟨exists_layout hs, fun hr r' => ?_⟩
  rw [← lex_eq_ok_iff hm hr, h]
  exact ⟨fun he => (Except.ok.inj he).symm, fun he => congrArg Except.ok he.symm⟩

/-- Of the tokens, one begins another one, one opens a literal and one a comment. -/
def fenced : TokenTable :=
  declare [⟨.inc, ["+", "++"]⟩, ⟨.buf, ["<"]⟩, ⟨.endBuf, [">"]⟩, ⟨.com, ["#"]⟩, ⟨.endCom, ["!"]⟩]
    (by decide)

def fences : Surface := { regions := [⟨.com, .endCom, .comment⟩, ⟨.buf, .endBuf, .literal⟩] }

/-- A literal, a comment and the opening token of a literal that is never closed. -/
def fencedText : String := "++<é+>#+!<+ "

def fencedLexed : Lexed := ⟨[⟨"++", none, 0⟩, ⟨"<", some "é+", 2⟩, ⟨"+", none, 11⟩], " "⟩

theorem opens_fenced :
    (fenced.opcodeOf? "+").bind fences.regionOpenedBy = none ∧
      (fenced.opcodeOf? "++").bind fences.regionOpenedBy = none ∧
      (fenced.opcodeOf? "<").bind fences.regionOpenedBy = some ⟨.buf, .endBuf, .literal⟩ ∧
      (fenced.opcodeOf? "#").bind fences.regionOpenedBy = some ⟨.com, .endCom, .comment⟩ := by
  simp only [opcodeOf?_eq_lookup]
  decide

theorem lex_fencedText : fenced.lex fences fencedText = .ok fencedLexed := by
  obtain ⟨plus, pluses, opening, comment⟩ := opens_fenced
  have closed : ClosedBy ((fenced.aliases? .endBuf).getD []) fencedText 3 "é+" ⟨6, ">"⟩ := by
    decide +kernel
  have passed : ClosedBy ((fenced.aliases? .endCom).getD []) fencedText 8 "+" ⟨9, "!"⟩ := by
    decide +kernel
  have cut : TailFrom fencedText 12 [' '] := by decide +kernel
  have end_ : fenced.Scans fences fencedText 12 (.ok ⟨[], " "⟩) := .rest (by decide +kernel) cut
  have last : fenced.Scans fences fencedText 11 (.ok ⟨[⟨"+", none, 11⟩], " "⟩) :=
    .plain (o := ⟨11, "+"⟩) (by decide +kernel) plus end_
  have unclosed : fenced.Scans fences fencedText 10 (.ok ⟨[⟨"+", none, 11⟩], " "⟩) :=
    .unclosed (o := ⟨10, "<"⟩) (by decide +kernel) opening rfl (by decide +kernel) last
  have hash : fenced.Scans fences fencedText 7 (.ok ⟨[⟨"+", none, 11⟩], " "⟩) :=
    .comment (o := ⟨7, "#"⟩) (by decide +kernel) comment rfl passed unclosed
  have literal : fenced.Scans fences fencedText 2
      (.ok ⟨[⟨"<", some "é+", 2⟩, ⟨"+", none, 11⟩], " "⟩) :=
    .literal (o := ⟨2, "<"⟩) (by decide +kernel) opening rfl closed hash
  exact (lex_eq_iff_scans rfl).2 (.plain (o := ⟨0, "++"⟩) (by decide +kernel) pluses literal)

def plainLexed : Lexed := ⟨[⟨"++", none, 0⟩, ⟨"+", none, 2⟩, ⟨"<", none, 3⟩], ""⟩

theorem lex_plain : fenced.lex {} "+++<" = .ok plainLexed :=
  (lex_eq_ok_iff rfl rfl).2 (by decide +kernel)

/-- The extents with regions, and the only cut without. -/
theorem layout_of_lex_fencedText :
    (fenced.lex fences fencedText = .ok fencedLexed ∧
      ∃ extents, fenced.Layout fences fencedText 0 fencedLexed extents) ∧
    fenced.lex {} "+++<" = .ok plainLexed ∧
      ∀ r, fenced.LeftmostLongest "+++<" 0 r ↔ r = plainLexed :=
  ⟨⟨lex_fencedText, (layout_of_lex rfl lex_fencedText).1⟩, lex_plain,
    (layout_of_lex rfl lex_plain).2 rfl⟩

end TokenTable

end TapeDialects
