import TapeDialects.Catalog
import TapeDialects.Proofs.Program.Writing
import TapeDialects.Proofs.Source.Afresh

/-!
# Reading what was written

A scan of a written program gives the program back, literals included, if the setting is
`Unambiguous` and every instruction is `Faithful`. The cursor of the scan always stands where the
text of an instruction ends: the next token begins behind the separator, since no token begins
in it, and it is the written token of the next instruction, since a longer one would have to go
on into the separator.

The condition on a token that begins a longer one is no more than that: dialects may have such
tokens if the separator tells them apart.
-/

namespace TapeDialects

open TokenTable (Entry)

/-- In the text with the closing token behind it, no token of the closing opcode begins within
the text, not even one that would go on behind it. -/
def TokenTable.EndsOnly (t : TokenTable) (closer : Opcode) (text : String) : Prop :=
  ∀ e ∈ t.entries, e.op = closer → ∀ u ∈ e.aliases, ∀ k, k < text.toList.length →
    ¬ u.toList <+: (text.toList ++ e.canonical.toList).drop k ∧
    ¬ (text.toList ++ e.canonical.toList).drop k <+: u.toList

namespace Setting

/-- The instruction can be written so that it can be read again: it opens no comment, and it has a
literal just if it opens one, which ends where the closing token stands. -/
def Faithful (d : Setting) (i : Instruction) : Prop :=
  i.op ∈ d.table.opcodes ∧
    match d.surface.regionOpenedBy i.op with
    | none => i.literal = none
    | some region => region.kind = .literal ∧
        ∃ text, i.literal = some text ∧ d.table.EndsOnly region.closer text

/-- Written tokens are recognised: they stand for their opcodes, no token begins within the
separator, and a written token that begins a longer one opens no region and is told apart from
the longer one by the separator. -/
structure Unambiguous (d : Setting) : Prop where
  scans : d.surface.mode = .scan
  resolves : ∀ e ∈ d.table.entries, d.table.opcodeOf? e.canonical = some e.op
  extended : ∀ e ∈ d.table.entries, ∀ u ∈ d.table.allTokens,
    e.canonical.toList <+: u.toList → u = e.canonical ∨
      d.surface.regionOpenedBy e.op = none ∧
      ¬ u.toList <+: e.canonical.toList ++ d.surface.separator.toList ∧
      ¬ e.canonical.toList ++ d.surface.separator.toList <+: u.toList
  foreign : ∀ c ∈ d.surface.separator.toList, ∀ u ∈ d.table.allTokens, u.toList.head? ≠ some c
  closers : ∀ r ∈ d.surface.regions, r.closer ∈ d.table.opcodes

theorem unambiguous_iff (d : Setting) :
    d.Unambiguous ↔
      d.surface.mode = .scan ∧
      (∀ e ∈ d.table.entries,
        (TokenTable.listings d.table.entries).lookup e.canonical = some e.op) ∧
      (∀ e ∈ d.table.entries, ∀ u ∈ d.table.allTokens,
        e.canonical.toList <+: u.toList → u = e.canonical ∨
          d.surface.regionOpenedBy e.op = none ∧
          ¬ u.toList <+: e.canonical.toList ++ d.surface.separator.toList ∧
          ¬ e.canonical.toList ++ d.surface.separator.toList <+: u.toList) ∧
      (d.surface.separator.toList.all fun c => d.table.allTokens.all fun u =>
        u.toList.head? ≠ some c) = true ∧
      ∀ r ∈ d.surface.regions, r.closer ∈ d.table.opcodes := by
  simp only [← TokenTable.opcodeOf?_eq_lookup, List.all_eq_true, decide_eq_true_eq]
  exact ⟨fun ⟨h1, h2, h3, h4, h5⟩ => ⟨h1, h2, h3, h4, h5⟩,
    fun ⟨h1, h2, h3, h4, h5⟩ => ⟨h1, h2, h3, h4, h5⟩⟩

instance (d : Setting) : Decidable d.Unambiguous :=
  decidable_of_iff _ d.unambiguous_iff.symm

/-- Tokens are told apart wherever they stand: they differ, none begins another one, and none
begins with a character of the separator. -/
structure Distinct (d : Setting) : Prop where
  scans : d.surface.mode = .scan
  nodup : d.table.allTokens.Nodup
  unextended : ∀ u ∈ d.table.allTokens, ∀ v ∈ d.table.allTokens, u.toList <+: v.toList → u = v
  foreign : ∀ c ∈ d.surface.separator.toList, ∀ u ∈ d.table.allTokens, u.toList.head? ≠ some c

variable {d : Setting} {e : Entry} {i : Instruction} {cur : Cursor} {lead back : List Char}

theorem Distinct.unambiguous (h : d.Distinct)
    (hr : ∀ r ∈ d.surface.regions, r.closer ∈ d.table.opcodes) : d.Unambiguous where
  scans := h.scans
  resolves := fun _ he =>
    TokenTable.opcodeOf?_of_nodup h.nodup he (TokenTable.canonical_mem_aliases he)
  extended := fun _ he _ hu hp =>
    .inl (h.unextended _ (TokenTable.mem_allTokens he (TokenTable.canonical_mem_aliases he)) _ hu
      hp).symm
  foreign := h.foreign
  closers := hr

/-! ### Tokens in a written text -/

/-- A written token is the longest at its place, whatever follows that begins with a separator. -/
theorem Unambiguous.longest (hd : d.Unambiguous) (he : e ∈ d.table.entries)
    (hb : d.surface.regionOpenedBy e.op ≠ none ∨ back = [] ∨
      d.surface.separator.toList <+: back) {u : String} (hu : u ∈ d.table.allTokens)
    (hp : u.toList <+: e.canonical.toList ++ back) :
    u.toList.length ≤ e.canonical.toList.length := by
  by_cases hr : d.surface.regionOpenedBy e.op = none
  · have hback : back = [] ∨ d.surface.separator.toList <+: back :=
      hb.resolve_left fun h => h hr
    exact FirstToken.longest_of_apart
      (fun v hv hc => (hd.extended e he v hv hc).imp_right And.right) hback hu hp
  · -- It begins no other token, so what follows may be anything.
    exact FirstToken.longest_of_apart
      (fun v hv hc => .inl ((hd.extended e he v hv hc).resolve_right fun h => hr h.1))
      (.inr (List.prefix_refl back)) hu hp

theorem Unambiguous.firstToken (hd : d.Unambiguous) (he : e ∈ d.table.entries)
    (hl : ∀ c ∈ lead, c ∈ d.surface.separator.toList)
    (hb : d.surface.regionOpenedBy e.op ≠ none ∨ back = [] ∨
      d.surface.separator.toList <+: back) :
    FirstToken d.table.allTokens (lead ++ (e.canonical.toList ++ back)) lead e.canonical back :=
  .of_lead (TokenTable.mem_allTokens he (TokenTable.canonical_mem_aliases he))
    d.table.empty_not_mem_allTokens (fun c hc => hd.foreign c (hl c hc))
    fun _ hu hp => hd.longest he hb hu hp

theorem Unambiguous.firstToken_close (hd : d.Unambiguous) (he : e ∈ d.table.entries)
    {text : String} (ht : d.table.EndsOnly e.op text)
    (hb : back = [] ∨ d.surface.separator.toList <+: back) :
    FirstToken e.aliases (text.toList ++ (e.canonical.toList ++ back)) text.toList e.canonical
      back where
  text_eq := rfl
  mem := TokenTable.canonical_mem_aliases he
  none_before := by
    intro u hu k hk hp
    obtain ⟨h, h'⟩ := ht e he rfl u hu k hk
    have hle : k ≤ (text.toList ++ e.canonical.toList).length := by
      rw [List.length_append]
      omega
    rw [← List.append_assoc, List.drop_append_of_le_length hle] at hp
    rcases List.prefix_or_prefix_of_prefix hp (List.prefix_append _ back) with hx | hx
    · exact h hx
    · exact h' hx
  longest := fun u hu hp => hd.longest he (.inr hb) (TokenTable.mem_allTokens he hu) hp

/-! ### One instruction -/

theorem instructionOf_canonical (hd : d.Unambiguous) (he : e ∈ d.table.entries)
    (literal : Option String) (n : Nat) :
    d.table.instructionOf ⟨e.canonical, literal, n⟩ = .ok ⟨e.op, literal⟩ := by
  unfold TokenTable.instructionOf TokenTable.opcodeOf
  dsimp only
  rw [hd.resolves e he]

theorem scanAfresh_written_plain (hd : d.Unambiguous) (he : e ∈ d.table.entries)
    (hreg : d.surface.regionOpenedBy e.op = none) (hl : ∀ c ∈ lead, c ∈ d.surface.separator.toList)
    (hb : back = [] ∨ d.surface.separator.toList <+: back)
    (hr : cur.rest = lead ++ (e.canonical.toList ++ back)) :
    ∃ l next, d.table.instructionOf l = .ok ⟨e.op, none⟩ ∧ next.rest = back ∧
      d.table.scanAfresh d.surface cur = (d.table.scanAfresh d.surface next).map (.cons l) := by
  have hm := TokenTable.mem_allTokens he (TokenTable.canonical_mem_aliases he)
  have hbind : (d.table.opcodeOf? e.canonical).bind d.surface.regionOpenedBy = none := by
    rw [hd.resolves e he, Option.bind_some, hreg]
  have hf := hd.firstToken he hl (.inr hb)
  rw [← hr] at hf
  exact ⟨_, _, instructionOf_canonical hd he none _, rfl,
    TokenTable.scanAfresh_plain hf (TokenTable.ne_empty_of_mem_allTokens hm) hbind⟩

/-- Behind an opcode that opens a literal, the scan takes what lies before the first closing
token. -/
theorem scanAfresh_written_literal (hd : d.Unambiguous) (he : e ∈ d.table.entries)
    {region : Region} (hreg : d.surface.regionOpenedBy e.op = some region)
    (hk : region.kind = .literal) (hl : ∀ c ∈ lead, c ∈ d.surface.separator.toList)
    {inner text : List Char} {close : String}
    (hc : FirstToken ((d.table.aliases? region.closer).getD []) inner text close back)
    (hr : cur.rest = lead ++ (e.canonical.toList ++ inner)) :
    ∃ l next, d.table.instructionOf l = .ok ⟨e.op, some (String.ofList text)⟩ ∧
      next.rest = back ∧
      d.table.scanAfresh d.surface cur = (d.table.scanAfresh d.surface next).map (.cons l) := by
  have hm := TokenTable.mem_allTokens he (TokenTable.canonical_mem_aliases he)
  have hbind : (d.table.opcodeOf? e.canonical).bind d.surface.regionOpenedBy = some region := by
    rw [hd.resolves e he, Option.bind_some, hreg]
  have hopens : d.surface.regionOpenedBy e.op ≠ none := by
    rw [hreg]
    exact Option.some_ne_none region
  have hf : FirstToken d.table.allTokens (lead ++ (e.canonical.toList ++ inner)) lead e.canonical
      inner := hd.firstToken he hl (.inl hopens)
  rw [← hr] at hf
  have hne : close.toList ≠ [] := fun h =>
    TokenTable.empty_not_mem_aliases d.table region.closer
      (String.toList_eq_nil_iff.1 h ▸ hc.mem)
  exact ⟨_, _, instructionOf_canonical hd he _ _, rfl,
    TokenTable.scanAfresh_literal hf (TokenTable.ne_empty_of_mem_allTokens hm) hbind hk hc hne⟩

/-- A scan whose cursor stands before a separator and a written instruction reads the instruction
and goes on behind it. -/
theorem scanAfresh_written (hd : d.Unambiguous) (hi : d.Faithful i)
    (hl : ∀ c ∈ lead, c ∈ d.surface.separator.toList)
    (hb : back = [] ∨ d.surface.separator.toList <+: back)
    (hr : cur.rest = lead ++ ((d.table.writtenText d.surface i).toList ++ back)) :
    ∃ l next, d.table.instructionOf l = .ok i ∧ next.rest = back ∧
      d.table.scanAfresh d.surface cur = (d.table.scanAfresh d.surface next).map (.cons l) := by
  obtain ⟨op, literal⟩ := i
  obtain ⟨ho, hi⟩ := hi
  obtain ⟨e, he, rfl⟩ := TokenTable.entry_of_mem_opcodes ho
  dsimp only at hi
  cases hreg : d.surface.regionOpenedBy e.op with
  | none =>
    rw [hreg] at hi
    obtain rfl : literal = none := hi
    rw [TokenTable.writtenText_plain rfl, TokenTable.written_entry he] at hr
    exact scanAfresh_written_plain hd he hreg hl hb hr
  | some region =>
    rw [hreg] at hi
    obtain ⟨hk, text, rfl, ht⟩ := hi
    have hmr : region ∈ d.surface.regions := List.mem_of_find?_eq_some hreg
    obtain ⟨e', he', hoc⟩ := TokenTable.entry_of_mem_opcodes (hd.closers region hmr)
    rw [TokenTable.writtenText_literal hreg hk rfl, TokenTable.written_entry he, ← hoc,
      TokenTable.written_entry he', String.toList_append, String.toList_append, List.append_assoc,
      List.append_assoc] at hr
    have hc : FirstToken ((d.table.aliases? region.closer).getD [])
        (text.toList ++ (e'.canonical.toList ++ back)) text.toList e'.canonical back := by
      rw [← hoc, TokenTable.aliases?_entry he', Option.getD_some]
      exact hd.firstToken_close he' (hoc ▸ ht) hb
    have hs := scanAfresh_written_literal hd he hreg hk hl hc hr
    rwa [String.ofList_toList] at hs

/-! ### Programs -/

/-- A scan that stands before a separator and written instructions reads them all: it comes from
each to the separator before the next. -/
theorem scanAfresh_written_all (hd : d.Unambiguous) {is : List Instruction}
    (hi : ∀ j ∈ i :: is, d.Faithful j) (hl : ∀ c ∈ lead, c ∈ d.surface.separator.toList)
    (hr : cur.rest = lead ++ ((d.table.writtenText d.surface i).toList ++
      joined d.surface.separator (is.map (d.table.writtenText d.surface)))) :
    ∃ ls, d.table.scanAfresh d.surface cur = .ok ⟨ls, ""⟩ ∧
      ls.mapM d.table.instructionOf = .ok (i :: is) := by
  have hi₁ := hi i (List.mem_cons_self ..)
  induction is generalizing i cur lead with
  | nil =>
    obtain ⟨l, next, hm, hn, hs⟩ := scanAfresh_written hd hi₁ hl (.inl rfl) hr
    refine ⟨[l], ?_, ?_⟩
    · rw [hs, TokenTable.scanAfresh_end hn]
      rfl
    · rw [List.mapM_cons, hm]
      rfl
  | cons j is ih =>
    rw [List.map_cons, joined_cons] at hr
    obtain ⟨l, next, hm, hn, hs⟩ := scanAfresh_written hd hi₁ hl (.inr ⟨_, rfl⟩) hr
    have hi' : ∀ x ∈ j :: is, d.Faithful x := fun x hx => hi x (List.mem_cons_of_mem i hx)
    obtain ⟨ls, hls, hms⟩ := ih hi' (fun c hc => hc) hn (hi' j (List.mem_cons_self ..))
    refine ⟨l :: ls, ?_, ?_⟩
    · rw [hs, hls]
      rfl
    · rw [List.mapM_cons, hm, hms]
      rfl

theorem scanAfresh_intercalate (hd : d.Unambiguous) {is : List Instruction}
    (hi : ∀ i ∈ is, d.Faithful i)
    (hr : cur.rest = (d.surface.separator.intercalate
      (is.map (d.table.writtenText d.surface))).toList) :
    ∃ ls, d.table.scanAfresh d.surface cur = .ok ⟨ls, ""⟩ ∧
      ls.mapM d.table.instructionOf = .ok is := by
  cases is with
  | nil => exact ⟨[], TokenTable.scanAfresh_end (by simpa using hr), rfl⟩
  | cons i is =>
    rw [List.map_cons, toList_intercalate_cons] at hr
    have hl : ∀ c ∈ ([] : List Char), c ∈ d.surface.separator.toList := by simp
    exact scanAfresh_written_all hd hi hl hr

theorem compile_of_render (hd : d.Unambiguous) {p : Program} (hp : ∀ i ∈ p, d.Faithful i) :
    ∃ text lexed, d.render p = .ok text ∧ d.lex text = .ok lexed ∧ lexed.trailing = "" ∧
      d.compile text = .ok p := by
  have hi : ∀ i ∈ p.toList, d.Faithful i := fun i hi => hp i (Array.mem_toList_iff.1 hi)
  have hr : (Cursor.ofText (d.surface.separator.intercalate
      (p.toList.map (d.table.writtenText d.surface)))).rest =
    (d.surface.separator.intercalate (p.toList.map (d.table.writtenText d.surface))).toList := rfl
  obtain ⟨ls, hs, hm⟩ := scanAfresh_intercalate hd hi hr
  have hlex : d.lex (d.surface.separator.intercalate
      (p.toList.map (d.table.writtenText d.surface))) = .ok ⟨ls, ""⟩ := by
    unfold lex TokenTable.lex
    rw [hd.scans]
    dsimp only
    rw [TokenTable.scan_eq_scanAfresh, hs]
  refine ⟨_, ⟨ls, ""⟩, render_eq_of_known hd.closers fun i hi => (hp i hi).1, hlex, rfl, ?_⟩
  unfold compile
  rw [hlex]
  show d.table.programOf ls = .ok p
  rw [TokenTable.programOf, hm]

theorem compile_eq_of_render (hd : d.Unambiguous) {p : Program} (hp : ∀ i ∈ p, d.Faithful i)
    {text : String} (hr : d.render p = .ok text) : d.compile text = .ok p := by
  obtain ⟨text', _, hr', _, _, hc⟩ := compile_of_render hd hp
  rw [hr] at hr'
  cases hr'
  exact hc

theorem faithful_ofOpcodes {ops : List Opcode}
    (h : ∀ op ∈ ops, op ∈ d.table.opcodes ∧ d.surface.regionOpenedBy op = none) :
    ∀ i ∈ Program.ofOpcodes ops, d.Faithful i := by
  intro i hi
  obtain ⟨op, hop, rfl⟩ : ∃ op ∈ ops, { op := op } = i := by simpa [Program.ofOpcodes] using hi
  obtain ⟨hm, hr⟩ := h op hop
  refine ⟨hm, ?_⟩
  rw [hr]

end Setting

namespace Dialect

/-- What a dialect has written it reads as the same program: every written token stands for its
opcode and begins no longer token, no token begins with a character of the separator, and every
instruction is faithful. -/
theorem compile_render {d : Dialect} (hm : d.surface.mode = .scan)
    (hr : ∀ e ∈ d.table.entries, d.table.opcodeOf e.canonical = .ok e.op)
    (hp : ∀ e ∈ d.table.entries, ∀ u ∈ d.table.allTokens,
      e.canonical.toList <+: u.toList → u = e.canonical)
    (hs : ∀ c ∈ d.surface.separator.toList, ∀ u ∈ d.table.allTokens, u.toList.head? ≠ some c)
    {p : Program} (hi : ∀ i ∈ p, d.Faithful i) :
    ∃ text lexed, d.render p = .ok text ∧ d.lex text = .ok lexed ∧ lexed.trailing = "" ∧
      d.compile text = .ok p := by
  have hd : d.Unambiguous :=
    { scans := hm
      resolves := fun e he => TokenTable.opcodeOf_eq_ok_iff.1 (hr e he)
      extended := fun e he u hu h => .inl (hp e he u hu h)
      foreign := hs
      closers := fun r h => (d.regions_known r h).2 }
  exact Setting.compile_of_render hd hi

/-- The literal holds the token that opens it and ends as the closing token begins. -/
def fencedLiteral : Program := #[⟨.buf, some "ーて"⟩, ⟨.put, none⟩]

theorem faithful_fencedLiteral : ∀ i ∈ fencedLiteral, Catalog.tettette.Faithful i := by
  intro i hi
  have hi' : i = ⟨.buf, some "ーて"⟩ ∨ i = ⟨.put, none⟩ := by simpa [fencedLiteral] using hi
  rcases hi' with rfl | rfl
  · refine ⟨by decide, rfl, "ーて", rfl, ?_⟩
    unfold TokenTable.EndsOnly
    decide +kernel
  · exact ⟨by decide, rfl⟩

theorem compile_render_fencedLiteral :
    (∀ i ∈ fencedLiteral, Catalog.tettette.Faithful i) ∧
      ∃ text lexed, Catalog.tettette.render fencedLiteral = .ok text ∧
        Catalog.tettette.lex text = .ok lexed ∧ lexed.trailing = "" ∧
        Catalog.tettette.compile text = .ok fencedLiteral := by
  have hr : ∀ e ∈ Catalog.tettette.table.entries,
      Catalog.tettette.table.opcodeOf e.canonical = .ok e.op := by
    simp only [TokenTable.opcodeOf_eq_ok_iff, TokenTable.opcodeOf?_eq_lookup]
    decide +kernel
  have hs : Catalog.tettette.surface.separator.toList = [] := String.toList_eq_nil_iff.2 rfl
  exact ⟨faithful_fencedLiteral,
    compile_render rfl hr (by decide +kernel) (by simp [hs]) faithful_fencedLiteral⟩

end Dialect

end TapeDialects
