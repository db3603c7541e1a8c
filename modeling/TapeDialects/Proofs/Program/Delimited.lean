import TapeDialects.Dialect.Basic
import TapeDialects.Proofs.Program.Writing
import TapeDialects.Proofs.Source.Cuts

/-!
# Programs as delimited texts

A written program is cut at the separators that join its tokens, and nowhere else if no token has
a character at which a text may be cut. So it is read back, provided that it is joined by a
separator at all: the first separator of a surface may be empty, or there may be none, and tokens
that are joined by nothing are one piece, which is no token
(`Dialect.compile_render_delimited_iff`).
-/

namespace TapeDialects

open Cursor (byteLength byteLength_toList)

/-- A delimited text may be cut at the character. -/
def Surface.Delimits (s : Surface) (c : Char) : Prop :=
  (∃ u ∈ s.separators, c ∈ u.toList) ∨ (∀ u ∈ s.separators, u = "") ∧ Text.isBlank c = true

instance (s : Surface) (c : Char) : Decidable (s.Delimits c) :=
  inferInstanceAs (Decidable ((∃ u ∈ s.separators, c ∈ u.toList) ∨ _))

/-- A delimited text is nowhere cut within the word. -/
def Surface.KeepsWhole (s : Surface) (w : String) : Prop := ∀ c ∈ w.toList, ¬ s.Delimits c

instance (s : Surface) (w : String) : Decidable (s.KeepsWhole w) :=
  List.decidableBAll (fun c => ¬ s.Delimits c) w.toList

/-! ### Pieces of joined words -/

namespace Piece

variable {separators : List String} {source separator w : String} {ws : List String} {n : Nat}
  {tail : List Char}

/-- A separator begins with one of its characters. -/
theorem exists_tailFrom_cons {u : String} {k : Nat} (hne : "" ∉ separators) (hu : u ∈ separators)
    (h : StandsAt source k u) : ∃ c ∈ u.toList, ∃ back, TailFrom source k (c :: back) := by
  obtain ⟨back, hb⟩ := h
  cases hc : u.toList with
  | nil => exact absurd (String.toList_eq_nil_iff.1 hc ▸ hu) hne
  | cons c cs =>
    rw [hc] at hb
    exact ⟨c, List.mem_cons_self .., cs ++ back, hb⟩

theorem noneFrom_of_free (hne : "" ∉ separators)
    (hfree : ∀ c ∈ tail, ∀ u ∈ separators, c ∉ u.toList) (h : TailFrom source n tail) :
    NoneFrom separators source n := by
  intro u hu k hk hs
  obtain ⟨c, hc, back, hcut⟩ := exists_tailFrom_cons hne hu hs
  obtain ⟨mid, rfl, -⟩ := h.eq_append_of_le hcut hk
  exact hfree c (by simp) u hu hc

/-- Behind a word without characters of separators, the separator that stands there cuts. -/
theorem closedBy_of_free {v : Char} {vs : List Char} (hne : "" ∉ separators)
    (hsep : separator ∈ separators) (hw : ∀ c ∈ w.toList, ∀ u ∈ separators, c ∉ u.toList)
    (hv : ∀ u ∈ separators, v ∉ u.toList)
    (h : TailFrom source n (w.toList ++ (separator.toList ++ v :: vs))) :
    ClosedBy separators source n w ⟨n + w.utf8ByteSize, separator⟩ := by
  have hbehind : TailFrom source (n + w.utf8ByteSize) (separator.toList ++ v :: vs) := by
    rw [← byteLength_toList]
    exact h.behind
  have hstands : StandsAt source n w := ⟨_, h⟩
  refine ⟨⟨hsep, Nat.le_add_right .., ⟨_, hbehind⟩, ?_, ?_⟩, hstands, rfl⟩
  · intro u hu k hk hlt hs
    obtain ⟨c, hc, back, hcut⟩ := exists_tailFrom_cons hne hu hs
    exact hw c (hstands.mem_of_cut hcut hk hlt) u hu hc
  · -- A longer separator would have the first character of the next word.
    intro u hu hs
    change StandsAt source (n + w.utf8ByteSize) u at hs
    have hnext := hbehind.behind
    rw [byteLength_toList] at hnext
    rcases Nat.lt_or_ge separator.utf8ByteSize u.utf8ByteSize with hlt | hge
    · exact absurd (hs.mem_of_cut hnext (by omega) (by omega)) (hv u hu)
    · exact hge

/-- Joined words are cut at the separators between them. -/
theorem exists_cutFrom_joined (hne : "" ∉ separators) (hsep : separator ∈ separators)
    (hfree : ∀ v ∈ w :: ws, ∀ c ∈ v.toList, ∀ u ∈ separators, c ∉ u.toList)
    (hws : ∀ v ∈ ws, v ≠ "") (h : TailFrom source n (w.toList ++ joined separator ws)) :
    ∃ pieces cuts, CutFrom separators source n pieces cuts ∧ pieces.map (·.text) = w :: ws := by
  have hw := hfree w (List.mem_cons_self ..)
  induction ws generalizing n w with
  | nil =>
    rw [joined, List.flatMap_nil, List.append_nil] at h
    exact ⟨_, _, .last (noneFrom_of_free hne hw h) h, by simp⟩
  | cons x ws ih =>
    rw [joined_cons] at h
    have hx := hfree x (by simp)
    obtain ⟨v, vs, hv⟩ : ∃ v vs, x.toList = v :: vs :=
      List.exists_cons_of_ne_nil fun hn => hws x (by simp) (String.toList_eq_nil_iff.1 hn)
    have hclosed : ClosedBy separators source n w ⟨n + w.utf8ByteSize, separator⟩ := by
      rw [hv, List.cons_append] at h
      exact closedBy_of_free hne hsep hw (hx v (by simp [hv])) h
    have hmore : TailFrom source (n + w.utf8ByteSize + separator.utf8ByteSize)
        (x.toList ++ joined separator ws) := by
      rw [← byteLength_toList w, ← byteLength_toList separator]
      exact h.behind.behind
    obtain ⟨pieces, cuts, hcut, htexts⟩ := ih (fun y hy => hfree y (List.mem_cons_of_mem w hy))
      (fun y hy => hws y (List.mem_cons_of_mem x hy)) hmore hx
    exact ⟨_, _, .cut hclosed hcut, by rw [List.map_cons, htexts]⟩

/-! ### Pieces of texts that nothing cuts -/

theorem splitBlanksFrom_of_free {cs : List Char} (h : ∀ c ∈ cs, Text.isBlank c = false)
    (word : List Char) (offset : Nat) :
    splitBlanksFrom [] n word offset cs =
      (addTo [] ⟨n, String.ofList (word.reverse ++ cs)⟩).reverse := by
  induction cs generalizing word offset with
  | nil => rw [splitBlanksFrom, List.append_nil]
  | cons c cs ih =>
    rw [splitBlanksFrom, if_neg (by simp [h c]), ih fun x hx => h x (List.mem_cons_of_mem c hx)]
    simp

end Piece

open Piece

variable {s : Surface} {source : String} {ws : List String}

theorem Piece.texts_filter {pieces : List Piece} (hws : ∀ w ∈ ws, w ≠ "")
    (h : pieces.map (·.text) = ws) :
    (pieces.filter fun p => !p.text.isEmpty).map (·.text) = ws := by
  rw [List.filter_eq_self.2 fun p hp => ?_, h]
  have := hws p.text (h ▸ List.mem_map_of_mem hp)
  simpa using this

theorem Surface.split_of_keepsWhole (h : s.KeepsWhole source) :
    split s.separators source = [⟨0, source⟩].filter fun p => !p.text.isEmpty := by
  by_cases hs : ∃ u ∈ s.separators, u ≠ ""
  · have hfree : ∀ c ∈ source.toList, ∀ u ∈ s.separators.filter (!·.isEmpty), c ∉ u.toList :=
      fun c hc u hu hm => h c hc (.inl ⟨u, (List.mem_filter.1 hu).1, hm⟩)
    have hcut := CutFrom.last (noneFrom_of_free (by simp) hfree (TailFrom.zero source))
      (TailFrom.zero source)
    rw [split_eq hs hcut, String.ofList_toList]
  · have hempty : ∀ u ∈ s.separators, u = "" := by simpa using hs
    have hblank : ∀ c ∈ source.toList, Text.isBlank c = false := by
      intro c hc
      have := h c hc
      simp only [Delimits, not_or, not_and, Bool.not_eq_true] at this
      exact this.2 hempty
    have hnil : s.separators.filter (!·.isEmpty) = [] :=
      List.filter_eq_nil_iff.2 fun u hu => by simp [hempty u hu]
    rw [split, hnil]
    dsimp only
    rw [splitBlanksFrom_of_free hblank, reverse_addTo, List.reverse_nil, List.nil_append,
      List.reverse_nil, List.nil_append, String.ofList_toList]

theorem Surface.texts_split_intercalate (hs : s.separator ≠ "" ∨ ws.length ≤ 1)
    (hws : ∀ w ∈ ws, w ≠ "") (hwhole : ∀ w ∈ ws, s.KeepsWhole w) :
    (split s.separators (s.separator.intercalate ws)).map (·.text) = ws := by
  cases ws with
  | nil => rw [String.intercalate_nil, split_of_keepsWhole (by simp [KeepsWhole])]; rfl
  | cons w ws =>
    by_cases hsep : s.separator = ""
    · -- There is one word only, and nothing in it at which it may be cut.
      obtain rfl : ws = [] := by simpa [hsep] using hs
      rw [String.intercalate_singleton, split_of_keepsWhole (hwhole w (by simp)),
        Piece.texts_filter hws (by simp)]
    · have hm : s.separator ∈ s.separators := by
        unfold separator at hsep ⊢
        cases hl : s.separators with
        | nil => simp [hl] at hsep
        | cons u us => simp
      have hcut : TailFrom (s.separator.intercalate (w :: ws)) 0
          (w.toList ++ joined s.separator ws) := by
        rw [← toList_intercalate_cons]
        exact TailFrom.zero _
      have hne : "" ∉ s.separators.filter (!·.isEmpty) := by simp
      obtain ⟨pieces, cuts, h, htexts⟩ := exists_cutFrom_joined hne
        (List.mem_filter.2 ⟨hm, by simpa using hsep⟩)
        (fun v hv c hc u hu hcu => hwhole v hv c hc (.inl ⟨u, (List.mem_filter.1 hu).1, hcu⟩))
        (fun v hv => hws v (List.mem_cons_of_mem w hv)) hcut
      rw [split_eq ⟨s.separator, hm, hsep⟩ h, Piece.texts_filter hws htexts]

/-- Words that are joined by nothing make one piece. -/
theorem Surface.length_split_intercalate_le (hsep : s.separator = "")
    (hwhole : ∀ w ∈ ws, s.KeepsWhole w) :
    (split s.separators (s.separator.intercalate ws)).length ≤ 1 := by
  rw [hsep, split_of_keepsWhole]
  · exact List.length_filter_le _ _
  · intro c hc
    obtain ⟨w, hw, hcw⟩ : ∃ w ∈ ws, c ∈ w.toList := by
      cases ws with
      | nil => simp at hc
      | cons w ws =>
        rw [toList_intercalate_cons] at hc
        simpa [joined] using hc
    exact hwhole w hw c hcw

/-! ### Reading what was written -/

namespace TokenTable

variable {t : TokenTable} {is : List Instruction}

theorem programOf_of_texts {ls : List Lexeme}
    (hi : ∀ i ∈ is, t.opcodeOf? (t.written i.op) = some i.op ∧ i.literal = none)
    (hl : ∀ l ∈ ls, l.literal = none) (h : ls.map (·.text) = is.map fun i => t.written i.op) :
    t.programOf ls = .ok is.toArray := by
  have hm : ls.mapM t.instructionOf = .ok is := by
    induction is generalizing ls with
    | nil =>
      rw [List.map_nil, List.map_eq_nil_iff] at h
      rw [h]
      rfl
    | cons i is ih =>
      obtain ⟨l, ls, rfl, hlt, hls⟩ := List.map_eq_cons_iff.1 h
      obtain ⟨hop, hlit⟩ := hi i (List.mem_cons_self ..)
      have hli : t.instructionOf l = .ok i := by
        rw [instructionOf, hlt, opcodeOf_eq_ok_iff.2 hop, hl l (List.mem_cons_self ..), ← hlit]
      rw [List.mapM_cons, hli, ih (fun j hj => hi j (List.mem_cons_of_mem i hj))
        (fun l' hl' => hl l' (List.mem_cons_of_mem l hl')) hls]
      rfl
  rw [programOf, hm]

/-- Pieces that are tokens become lexemes. -/
theorem lexemes_lexPieces (h : ∀ p ∈ split s.separators source, p.text ∈ t.allTokens) :
    (t.lexPieces s source).lexemes = (split s.separators source).map fun p =>
      ⟨p.text, none, p.offset⟩ := by
  rw [lexPieces, ← List.filterMap_eq_map]
  refine List.filterMap_congr fun p hp => ?_
  rw [if_pos (isSome_opcodeOf?_iff.2 (h p hp))]
  rfl

/-- Pieces that are the written tokens of a program are read as the program. -/
theorem programOf_lexPieces {p : Program}
    (ho : ∀ e ∈ t.entries, ∀ e' ∈ t.entries, ∀ u ∈ e.aliases, u ∈ e'.aliases → e.op = e'.op)
    (hp : ∀ i ∈ p.toList, i.op ∈ t.opcodes ∧ i.literal = none)
    (h : (split s.separators source).map (·.text) = p.toList.map fun i => t.written i.op) :
    t.programOf (t.lexPieces s source).lexemes = .ok p := by
  have hmem : ∀ q ∈ split s.separators source, q.text ∈ t.allTokens := by
    intro q hq
    have hq : q.text ∈ p.toList.map fun i => t.written i.op := h ▸ List.mem_map_of_mem hq
    obtain ⟨i, hi, he⟩ := List.mem_map.1 hq
    exact he ▸ written_mem (hp i hi).1
  have hop : ∀ i ∈ p.toList, t.opcodeOf? (t.written i.op) = some i.op := by
    intro i hi
    obtain ⟨e, he, heop⟩ := entry_of_mem_opcodes (hp i hi).1
    rw [← heop, written_entry he]
    exact opcodeOf?_of_owners ho he (canonical_mem_aliases he)
  rw [lexemes_lexPieces hmem]
  refine programOf_of_texts (fun i (hi : i ∈ p.toList) => ⟨hop i hi, (hp i hi).2⟩) (by simp) ?_
  rw [List.map_map]
  exact h

theorem length_of_programOf {ls : List Lexeme} {p : Program} (h : t.programOf ls = .ok p) :
    p.size = ls.length := by
  unfold programOf at h
  cases hm : ls.mapM t.instructionOf with
  | error e => simp [hm] at h
  | ok is =>
    rw [hm] at h
    cases h
    exact length_of_mapM hm

end TokenTable

namespace Dialect

variable {d : Dialect} {p : Program}

theorem render_delimited (hm : d.surface.mode = .delimited)
    (hp : ∀ i ∈ p, i.op ∈ d.table.opcodes ∧ i.literal = none) :
    d.render p =
      .ok (d.surface.separator.intercalate (p.toList.map fun i => d.table.written i.op)) := by
  have hwritten : p.toList.map (d.table.writtenText d.surface) =
      p.toList.map fun i => d.table.written i.op :=
    List.map_congr_left fun i hi =>
      TokenTable.writtenText_plain (hp i (Array.mem_toList_iff.1 hi)).2
  rw [← hwritten]
  exact Setting.render_eq_of_known (by simp [d.regions_of_delimited hm]) fun i hi => (hp i hi).1

theorem compile_delimited (hm : d.surface.mode = .delimited) (source : String) :
    d.compile source = d.table.programOf (d.table.lexPieces d.surface source).lexemes := by
  rw [Setting.compile, Setting.lex, TokenTable.lex, hm]
  rfl

/-- A program without literals is written as a delimited text, if no token belongs to two opcodes
and no token has a character at which the text may be cut. It is read back exactly if a separator
joins its tokens or there is no more than one of them. -/
theorem compile_render_delimited_iff (hm : d.surface.mode = .delimited)
    (ho : ∀ e ∈ d.table.entries, ∀ e' ∈ d.table.entries, ∀ u ∈ e.aliases, u ∈ e'.aliases →
      e.op = e'.op)
    (hwhole : ∀ u ∈ d.table.allTokens, d.surface.KeepsWhole u)
    (hp : ∀ i ∈ p, i.op ∈ d.table.opcodes ∧ i.literal = none) :
    ∃ text, d.render p = .ok text ∧
      (d.compile text = .ok p ↔ d.surface.separator ≠ "" ∨ p.size ≤ 1) := by
  let ws := p.toList.map fun i => d.table.written i.op
  have hknown : ∀ i ∈ p.toList, i.op ∈ d.table.opcodes ∧ i.literal = none :=
    fun i hi => hp i (Array.mem_toList_iff.1 hi)
  have hmem : ∀ w ∈ ws, w ∈ d.table.allTokens :=
    List.forall_mem_map.2 fun i hi => TokenTable.written_mem (hknown i hi).1
  have hws : ∀ w ∈ ws, w ≠ "" := fun w hw hn =>
    d.table.empty_not_mem_allTokens (hn ▸ hmem w hw)
  have hcut : ∀ w ∈ ws, d.surface.KeepsWhole w := fun w hw => hwhole w (hmem w hw)
  refine ⟨_, render_delimited hm hp, compile_delimited hm _ ▸ ⟨fun h => ?_, fun h => ?_⟩⟩
  · -- Tokens that nothing joins are at most one piece.
    rw [or_iff_not_imp_left, Decidable.not_not]
    intro hsep
    rw [TokenTable.length_of_programOf h]
    exact Nat.le_trans (List.length_filterMap_le _ _)
      (Surface.length_split_intercalate_le hsep hcut)
  · have hs : d.surface.separator ≠ "" ∨ ws.length ≤ 1 := h.imp_right fun h => by simpa [ws] using h
    exact TokenTable.programOf_lexPieces ho hknown (Surface.texts_split_intercalate hs hws hcut)

/-- A dialect of words, one separator of which begins another. -/
def words : Dialect :=
  Draft.declare
    { name := "words"
      table := TokenTable.declare [⟨.inc, ["up", "→"]⟩, ⟨.put, ["say"]⟩] (by decide)
      surface := { separators := [",", ",,", ""], mode := .delimited } }
    (by decide)

theorem compile_render_words :
    let p : Program := #[⟨.inc, none⟩, ⟨.put, none⟩, ⟨.inc, none⟩]
    words.surface.mode = .delimited ∧
      (∀ e ∈ words.table.entries, ∀ e' ∈ words.table.entries, ∀ u ∈ e.aliases, u ∈ e'.aliases →
        e.op = e'.op) ∧
      (∀ u ∈ words.table.allTokens, words.surface.KeepsWhole u) ∧
      (∀ i ∈ p, i.op ∈ words.table.opcodes ∧ i.literal = none) ∧
      words.render p = .ok "up,say,up" ∧ words.compile "up,say,up" = .ok p := by
  intro p
  have ho : ∀ e ∈ words.table.entries, ∀ e' ∈ words.table.entries, ∀ u ∈ e.aliases,
      u ∈ e'.aliases → e.op = e'.op := by decide
  have hwhole : ∀ u ∈ words.table.allTokens, words.surface.KeepsWhole u := by decide +kernel
  have hp : ∀ i ∈ p, i.op ∈ words.table.opcodes ∧ i.literal = none := by decide
  have hr : words.render p = .ok "up,say,up" := by decide +kernel
  obtain ⟨text, hr', h⟩ := compile_render_delimited_iff (d := words) rfl ho hwhole hp
  obtain rfl : "up,say,up" = text := Except.ok.inj (hr.symm.trans hr')
  exact ⟨rfl, ho, hwhole, hp, hr, h.2 (.inl (by decide))⟩

/-- The words are told apart by white space, but none is written between them. -/
def unseparated : Dialect :=
  Draft.declare
    { name := "unseparated"
      table := TokenTable.declare [⟨.inc, ["+"]⟩] (by decide)
      surface := { mode := .delimited } }
    (by decide)

theorem compile_render_unseparated :
    let p : Program := #[⟨.inc, none⟩, ⟨.inc, none⟩]
    unseparated.surface.mode = .delimited ∧
      (∀ e ∈ unseparated.table.entries, ∀ e' ∈ unseparated.table.entries, ∀ u ∈ e.aliases,
        u ∈ e'.aliases → e.op = e'.op) ∧
      (∀ u ∈ unseparated.table.allTokens, unseparated.surface.KeepsWhole u) ∧
      (∀ i ∈ p, i.op ∈ unseparated.table.opcodes ∧ i.literal = none) ∧
      unseparated.render p = .ok "++" ∧ unseparated.compile "++" = .ok #[] ∧
      unseparated.compile "++" ≠ .ok p := by
  intro p
  have hlex : unseparated.lex "++" = .ok ⟨[], ""⟩ := by
    rw [Setting.lex, TokenTable.lex, show unseparated.surface.mode = .delimited from rfl]
    simp only [TokenTable.lexPieces, TokenTable.opcodeOf?_eq_lookup]
    decide +kernel
  have hcompile : unseparated.compile "++" = .ok #[] := by
    rw [Setting.compile, hlex]
    rfl
  refine ⟨rfl, by decide, by decide +kernel, by decide, by decide +kernel, hcompile, ?_⟩
  rw [hcompile]
  decide

end Dialect

end TapeDialects
