import TapeDialects.Proofs.Program.Compiling

/-!
# Converted literals

A literal is written as it is, between the tokens of the target that open and close it. So it is in
the converted text that it first meets the closing tokens of the target, and one that begins within
it ends it there. `Setting.Fenced` says of written instructions that this does not happen. Where
tokens are told apart, that is all there is to ask: a program is read back from its text exactly if
it is fenced (`compile_of_convert_iff`).
-/

namespace TapeDialects

namespace Setting

/-! ### Literals among written instructions -/

/-- In front of `back`, no token that closes the literal of the instruction begins within it. -/
def Fits (d : Setting) (i : Instruction) (back : List Char) : Prop :=
  ∀ region ∈ d.surface.regionOpenedBy i.op, ∀ literal ∈ i.literal,
    ∀ u ∈ (d.table.aliases? region.closer).getD [], ∀ k < literal.toList.length,
      ¬ u.toList <+:
        (literal.toList ++ ((d.table.written region.closer).toList ++ back)).drop k

/-- In the text of the instructions no literal is closed early. -/
def Fenced (d : Setting) : List Instruction → Prop
  | [] => True
  | i :: is =>
    d.Fits i (joined d.surface.separator (is.map (d.table.writtenText d.surface))) ∧ d.Fenced is

instance (d : Setting) (i : Instruction) (back : List Char) : Decidable (d.Fits i back) :=
  inferInstanceAs (Decidable (∀ region ∈ d.surface.regionOpenedBy i.op, ∀ literal ∈ i.literal, _))

instance decidableFenced (d : Setting) : (is : List Instruction) → Decidable (d.Fenced is)
  | [] => .isTrue trivial
  | i :: is =>
    have := decidableFenced d is
    inferInstanceAs (Decidable (d.Fits i _ ∧ d.Fenced is))

/-- The instruction has a literal just if its opcode opens one, and it opens no comment. -/
def Shaped (d : Setting) (i : Instruction) : Prop :=
  i.op ∈ d.table.opcodes ∧ i.literal.isSome = (d.surface.regionOpenedBy i.op).isSome ∧
    ∀ region ∈ d.surface.regionOpenedBy i.op, region.kind = .literal

instance (d : Setting) (i : Instruction) : Decidable (d.Shaped i) :=
  inferInstanceAs (Decidable (_ ∧ _ ∧ ∀ region ∈ d.surface.regionOpenedBy i.op, _))

variable {d target : Setting} {i : Instruction} {cur next : Cursor} {lead back : List Char}
  {p : Program} {source : String}

theorem shaped_of_read (h : d.Read i)
    (hr : target.surface.regionOpenedBy i.op = d.surface.regionOpenedBy i.op)
    (ho : i.op ∈ target.table.opcodes) : target.Shaped i := by
  obtain ⟨-, hi⟩ := h
  rw [Shaped, hr]
  refine ⟨ho, ?_⟩
  cases hreg : d.surface.regionOpenedBy i.op with
  | none =>
    rw [hreg] at hi
    exact ⟨by rw [show i.literal = none from hi]; rfl, by simp⟩
  | some region =>
    rw [hreg] at hi
    obtain ⟨hk, text, _, _, hl, -⟩ := hi
    exact ⟨by rw [hl]; rfl, by simpa using hk⟩

/-! ### Reading one instruction -/

/-- A scan reads a written instruction as an instruction, and as itself just if its literal fits. -/
theorem scanAfresh_shaped (hd : d.Unambiguous) (hi : d.Shaped i)
    (hl : ∀ c ∈ lead, c ∈ d.surface.separator.toList)
    (hb : back = [] ∨ d.surface.separator.toList <+: back)
    (hr : cur.rest = lead ++ ((d.table.writtenText d.surface i).toList ++ back)) :
    ∃ l j next, d.table.instructionOf l = .ok j ∧
      d.table.scanAfresh d.surface cur = (d.table.scanAfresh d.surface next).map (.cons l) ∧
      (d.Fits i back → j = i ∧ next.rest = back) ∧ (j = i → d.Fits i back) := by
  obtain ⟨op, literal⟩ := i
  obtain ⟨ho, hi, hkind⟩ := hi
  obtain ⟨e, he, rfl⟩ := TokenTable.entry_of_mem_opcodes ho
  dsimp only at hi hkind
  cases hreg : d.surface.regionOpenedBy e.op with
  | none =>
    rw [hreg] at hi
    obtain rfl : literal = none := by simpa using hi
    rw [TokenTable.writtenText_plain rfl, TokenTable.written_entry he] at hr
    obtain ⟨l, next, hj, hn, hs⟩ := scanAfresh_written_plain hd he hreg hl hb hr
    refine ⟨l, _, next, hj, hs, fun _ => ⟨rfl, hn⟩, fun _ region hregion => ?_⟩
    rw [hreg] at hregion
    contradiction
  | some region =>
    have hk := hkind region hreg
    rw [hreg] at hi
    obtain ⟨text, rfl⟩ := Option.isSome_iff_exists.1 hi
    have hmr : region ∈ d.surface.regions := List.mem_of_find?_eq_some hreg
    obtain ⟨e', he', hoc⟩ := TokenTable.entry_of_mem_opcodes (hd.closers region hmr)
    have halias : (d.table.aliases? region.closer).getD [] = e'.aliases := by
      rw [← hoc, TokenTable.aliases?_entry he', Option.getD_some]
    have hwritten : d.table.written region.closer = e'.canonical := by
      rw [← hoc, TokenTable.written_entry he']
    have hfits : d.Fits ⟨e.op, some text⟩ back ↔ ∀ u ∈ e'.aliases, ∀ k < text.toList.length,
        ¬ u.toList <+: (text.toList ++ (e'.canonical.toList ++ back)).drop k := by
      simp only [Fits, hreg, Option.mem_some_iff, forall_eq', halias, hwritten]
    rw [TokenTable.writtenText_literal hreg hk rfl, TokenTable.written_entry he, hwritten,
      String.toList_append, String.toList_append, List.append_assoc, List.append_assoc] at hr
    -- The scan ends the literal at the first closing token, wherever that is.
    obtain ⟨skipped, close, back', hc⟩ :=
      FirstToken.exists_of_mem (TokenTable.canonical_mem_aliases he') text.toList back
    obtain ⟨l, next, hj, hn, hs⟩ :=
      scanAfresh_written_literal hd he hreg hk hl (halias ▸ hc) hr
    refine ⟨l, _, next, hj, hs, fun h => ?_, fun h => ?_⟩
    · have hc' : FirstToken e'.aliases (text.toList ++ (e'.canonical.toList ++ back)) text.toList
          e'.canonical back :=
        { text_eq := rfl
          mem := TokenTable.canonical_mem_aliases he'
          none_before := hfits.1 h
          longest := fun u hu hp => hd.longest he' (.inr hb) (TokenTable.mem_allTokens he' hu) hp }
      obtain ⟨rfl, -, rfl⟩ := hc.unique hc'
      exact ⟨by rw [String.ofList_toList], hn⟩
    · simp only [Instruction.mk.injEq, Option.some.injEq, true_and] at h
      obtain rfl : skipped = text.toList := by rw [← h, String.toList_ofList]
      exact hfits.2 hc.none_before

/-! ### Reading programs -/

def ReadsAs (d : Setting) (cur : Cursor) (is : List Instruction) : Prop :=
  ∃ r, d.table.scanAfresh d.surface cur = .ok r ∧ r.lexemes.mapM d.table.instructionOf = .ok is

theorem compile_eq_ok_iff (hm : d.surface.mode = .scan) :
    d.compile source = .ok p ↔ d.ReadsAs (Cursor.ofText source) p.toList := by
  have hlex : d.lex source = d.table.scanAfresh d.surface (Cursor.ofText source) := by
    rw [lex, TokenTable.lex, hm]
    exact TokenTable.scan_eq_scanAfresh ..
  unfold compile ReadsAs
  rw [hlex]
  cases d.table.scanAfresh d.surface (Cursor.ofText source) with
  | error e => simp [bind, Except.bind]
  | ok r =>
    show d.table.programOf r.lexemes = .ok p ↔ _
    simp only [Except.ok.injEq, exists_eq_left', TokenTable.programOf]
    cases r.lexemes.mapM d.table.instructionOf with
    | error e => simp
    | ok is => simp [Array.toList_inj.symm]

theorem readsAs_cons {l : Lexeme} {j : Instruction} {is : List Instruction}
    (hj : d.table.instructionOf l = .ok j)
    (hs : d.table.scanAfresh d.surface cur = (d.table.scanAfresh d.surface next).map (.cons l)) :
    d.ReadsAs cur (i :: is) ↔ j = i ∧ d.ReadsAs next is := by
  unfold ReadsAs
  rw [hs]
  cases d.table.scanAfresh d.surface next with
  | error e => simp [Except.map]
  | ok r =>
    have hmap : (Lexed.cons l r).lexemes.mapM d.table.instructionOf =
        (r.lexemes.mapM d.table.instructionOf).map (j :: ·) := by
      rw [Lexed.cons, List.mapM_cons, hj]
      cases r.lexemes.mapM d.table.instructionOf <;> rfl
    simp only [Except.map, Except.ok.injEq, exists_eq_left', hmap]
    cases r.lexemes.mapM d.table.instructionOf with
    | error e => simp
    | ok js => simp

theorem readsAs_written (hd : d.Unambiguous) {is : List Instruction}
    (hi : ∀ j ∈ i :: is, d.Shaped j) (hl : ∀ c ∈ lead, c ∈ d.surface.separator.toList)
    (hr : cur.rest = lead ++ ((d.table.writtenText d.surface i).toList ++
      joined d.surface.separator (is.map (d.table.writtenText d.surface)))) :
    d.ReadsAs cur (i :: is) ↔ d.Fenced (i :: is) := by
  have hi₁ := hi i (List.mem_cons_self ..)
  induction is generalizing i cur lead with
  | nil =>
    obtain ⟨l, j, next, hj, hs, hfit, hself⟩ := scanAfresh_shaped hd hi₁ hl (.inl rfl) hr
    rw [readsAs_cons hj hs, Fenced, Fenced, and_true]
    constructor
    · exact fun h => hself h.1
    · intro h
      obtain ⟨hji, hn⟩ := hfit h
      exact ⟨hji, _, TokenTable.scanAfresh_end hn, rfl⟩
  | cons i' is ih =>
    have hback : d.surface.separator.toList <+:
        joined d.surface.separator ((i' :: is).map (d.table.writtenText d.surface)) := by
      rw [List.map_cons, joined_cons]
      exact List.prefix_append _ _
    obtain ⟨l, j, next, hj, hs, hfit, hself⟩ := scanAfresh_shaped hd hi₁ hl (.inr hback) hr
    rw [readsAs_cons hj hs, Fenced]
    -- Only behind a literal that fits does the cursor stand before the next instruction.
    have hrest (h : d.Fits i
        (joined d.surface.separator ((i' :: is).map (d.table.writtenText d.surface)))) :
        d.ReadsAs next (i' :: is) ↔ d.Fenced (i' :: is) := by
      obtain ⟨-, hn⟩ := hfit h
      rw [List.map_cons, joined_cons] at hn
      exact ih (fun x hx => hi x (List.mem_cons_of_mem i hx)) (fun _ hc => hc) hn
        (hi i' (by simp))
    constructor
    · exact fun ⟨hji, hnext⟩ => ⟨hself hji, (hrest (hself hji)).1 hnext⟩
    · exact fun ⟨h, hf⟩ => ⟨(hfit h).1, (hrest h).2 hf⟩

theorem readsAs_intercalate (hd : d.Unambiguous) {is : List Instruction}
    (hi : ∀ i ∈ is, d.Shaped i)
    (hr : cur.rest = (d.surface.separator.intercalate
      (is.map (d.table.writtenText d.surface))).toList) :
    d.ReadsAs cur is ↔ d.Fenced is := by
  cases is with
  | nil =>
    have he : cur.rest = [] := by simpa using hr
    exact ⟨fun _ => trivial, fun _ => ⟨_, TokenTable.scanAfresh_end he, rfl⟩⟩
  | cons i is =>
    rw [List.map_cons, toList_intercalate_cons] at hr
    have hl : ∀ c ∈ ([] : List Char), c ∈ d.surface.separator.toList := by simp
    exact readsAs_written hd hi hl hr

theorem known_of_render (hr : ∀ r ∈ d.surface.regions, r.closer ∈ d.table.opcodes)
    {text : String} (h : d.render p = .ok text) :
    (∀ i ∈ p, i.op ∈ d.table.opcodes) ∧
      text = d.surface.separator.intercalate (p.toList.map (d.table.writtenText d.surface)) := by
  rw [render, TokenTable.writeProgram_eq hr] at h
  cases hf : p.toList.find? fun i => !d.table.contains i.op with
  | some i =>
    rw [hf] at h
    contradiction
  | none =>
    rw [hf] at h
    cases h
    refine ⟨fun i hi => ?_, rfl⟩
    have hn := List.find?_eq_none.1 hf i (Array.mem_toList_iff.2 hi)
    rw [← d.table.contains_iff]
    simpa using hn

end Setting

namespace Dialect

theorem compile_text_iff {d : Dialect} (hd : d.toSetting.Distinct) {p : Program} {text : String}
    (hr : d.render p = .ok text) (hi : ∀ i ∈ p, d.Shaped i) :
    d.compile text = .ok p ↔ d.Fenced p.toList := by
  have hclosers : ∀ r ∈ d.surface.regions, r.closer ∈ d.table.opcodes :=
    fun r h => (d.regions_known r h).2
  obtain ⟨-, rfl⟩ := Setting.known_of_render hclosers hr
  rw [Setting.compile_eq_ok_iff hd.scans]
  exact Setting.readsAs_intercalate (hd.unambiguous hclosers)
    (fun i h => hi i (Array.mem_toList_iff.1 h)) rfl

/-- Between dialects with the same regions, a conversion keeps the program, literals included,
exactly if no token that closes a literal in the target begins within its text. -/
theorem compile_of_convert_iff {d d' : Dialect} (hm : d.surface.mode = .scan)
    (hd : d'.toSetting.Distinct)
    (hr : ∀ op, d'.surface.regionOpenedBy op = d.surface.regionOpenedBy op)
    {source text : String} (h : d.convert d'.toSetting source = .ok text) :
    ∃ p, d.compile source = .ok p ∧ (d'.compile text = .ok p ↔ d'.Fenced p.toList) := by
  obtain ⟨p, hp, hrender⟩ := ok_of_bind h
  have hknown := (Setting.known_of_render (fun r h => (d'.regions_known r h).2) hrender).1
  refine ⟨p, hp, compile_text_iff hd hrender fun i hi => ?_⟩
  exact Setting.shaped_of_read (Setting.read_of_compile hm hp hi) (hr i.op) (hknown i hi)

def angled : Dialect :=
  Draft.declare
    { name := "angled"
      table := TokenTable.declare [⟨.buf, ["<"]⟩, ⟨.endBuf, [">"]⟩] (by decide)
      surface := { regions := [⟨.buf, .endBuf, .literal⟩] } }
    (by decide)

def rounded : Dialect :=
  Draft.declare
    { name := "rounded"
      table := TokenTable.declare [⟨.buf, ["("]⟩, ⟨.endBuf, [")"]⟩] (by decide)
      surface := { regions := [⟨.buf, .endBuf, .literal⟩] } }
    (by decide)

theorem distinct_angled : angled.toSetting.Distinct := by
  have hs : angled.surface.separator.toList = [] := String.toList_eq_nil_iff.2 rfl
  exact ⟨rfl, by decide, by decide +kernel, by simp [hs]⟩

theorem distinct_rounded : rounded.toSetting.Distinct := by
  have hs : rounded.surface.separator.toList = [] := String.toList_eq_nil_iff.2 rfl
  exact ⟨rfl, by decide, by decide +kernel, by simp [hs]⟩

/-- The opening token of the target may stand in a literal. -/
theorem compile_of_convert_iff_opening :
    angled.convert rounded.toSetting "<(>" = .ok "(()" ∧
      angled.compile "<(>" = .ok #[⟨.buf, some "("⟩] ∧
      rounded.compile "(()" = .ok #[⟨.buf, some "("⟩] := by
  have hp : angled.compile "<(>" = .ok #[⟨.buf, some "("⟩] :=
    (compile_text_iff distinct_angled (by decide +kernel) (by decide +kernel)).2
      (by decide +kernel)
  have hconv : angled.convert rounded.toSetting "<(>" = .ok "(()" := by
    rw [Setting.convert, hp]
    decide +kernel
  obtain ⟨p, hp', hiff⟩ :=
    compile_of_convert_iff (d := angled) rfl distinct_rounded (fun _ => rfl) hconv
  rw [hp] at hp'
  cases hp'
  exact ⟨hconv, hp, hiff.2 (by decide +kernel)⟩

/-- A literal that holds the closing token of the target ends there, and the rest of its text is
read as instructions, although both dialects tell their tokens apart. -/
theorem convert_changes_literal :
    angled.toSetting.Distinct ∧ rounded.toSetting.Distinct ∧
      rounded.surface.regions = angled.surface.regions ∧
      angled.convert rounded.toSetting "<)>" = .ok "())" ∧
      angled.compile "<)>" = .ok #[⟨.buf, some ")"⟩] ∧
      rounded.compile "())" = .ok #[⟨.buf, some ""⟩, ⟨.endBuf, none⟩] ∧
      rounded.compile "())" ≠ angled.compile "<)>" := by
  have hp : angled.compile "<)>" = .ok #[⟨.buf, some ")"⟩] :=
    (compile_text_iff distinct_angled (by decide +kernel) (by decide +kernel)).2
      (by decide +kernel)
  have hp' : rounded.compile "())" = .ok #[⟨.buf, some ""⟩, ⟨.endBuf, none⟩] :=
    (compile_text_iff distinct_rounded (by decide +kernel) (by decide +kernel)).2
      (by decide +kernel)
  have hconv : angled.convert rounded.toSetting "<)>" = .ok "())" := by
    rw [Setting.convert, hp]
    decide +kernel
  refine ⟨distinct_angled, distinct_rounded, rfl, hconv, hp, hp', ?_⟩
  rw [hp, hp']
  decide

end Dialect

end TapeDialects
