import TapeDialects.Proofs.Program.RoundTrip
import TapeDialects.Proofs.Source.Extent

/-!
# Read programs

What is known of the instructions of a program that was read from a text by a scan: their
opcodes are in the table, none of them opens a comment, and an instruction has a literal exactly
if it opens one; the literal is then cut off at the first closing token behind it
(`read_of_compile`). A `Compatible` setting can write such instructions and read them again
(`faithful_of_read`), so that a conversion keeps the program (`convert_of_compile`).
-/

namespace TapeDialects

namespace Setting

/-- What holds of an instruction that was read. -/
def Read (d : Setting) (i : Instruction) : Prop :=
  i.op ∈ d.table.opcodes ∧
    match d.surface.regionOpenedBy i.op with
    | none => i.literal = none
    | some region => region.kind = .literal ∧
        ∃ text close back, i.literal = some (String.ofList text) ∧
          FirstToken ((d.table.aliases? region.closer).getD []) (text ++ (close.toList ++ back))
            text close back

variable {d : Setting} {i : Instruction} {l : Lexeme} {source : String} {stop : Nat}

theorem read_of_holds (h : d.table.Holds d.surface source ⟨l, stop⟩)
    (hi : d.table.instructionOf l = .ok i) : d.Read i := by
  unfold TokenTable.instructionOf TokenTable.opcodeOf at hi
  cases hop : d.table.opcodeOf? l.text with
  | none => simp [hop] at hi
  | some op =>
    rw [hop] at hi
    cases hi
    refine ⟨TokenTable.mem_opcodes_of_opcodeOf? hop, ?_⟩
    have hopens : (d.table.opcodeOf? l.text).bind d.surface.regionOpenedBy =
        d.surface.regionOpenedBy op := by rw [hop, Option.bind_some]
    have hliteral := h.literal_iff
    have hkind := h.opens_literal
    have henclosed := h.enclosed
    dsimp only at hliteral hkind henclosed ⊢
    rw [hopens] at hliteral hkind henclosed
    cases hr : d.surface.regionOpenedBy op with
    | none => simpa [hr] using hliteral
    | some region =>
      rw [hr] at hliteral hkind henclosed
      have hk : region.kind = .literal := hkind region rfl
      obtain ⟨text, ht⟩ := Option.isSome_iff_exists.1 (hliteral.2 ⟨region, rfl, hk⟩)
      obtain ⟨region', hregion, close, hc, -⟩ := henclosed text ht
      obtain rfl : region = region' := Option.some.inj hregion
      obtain ⟨back, hf⟩ := hc.exists_firstToken
      exact ⟨hk, text.toList, close.token, back, by rw [ht, String.ofList_toList], hf⟩

theorem mem_of_programOf {t : TokenTable} {ls : List Lexeme} {p : Program}
    (h : t.programOf ls = .ok p) (hi : i ∈ p) : ∃ l ∈ ls, t.instructionOf l = .ok i := by
  unfold TokenTable.programOf at h
  cases hm : ls.mapM t.instructionOf with
  | error e =>
    rw [hm] at h
    contradiction
  | ok is =>
    rw [hm] at h
    cases h
    exact mem_of_mapM hm (List.mem_toArray.1 hi)

theorem known_of_compile {source : String} {p : Program} (h : d.compile source = .ok p) :
    ∀ i ∈ p, i.op ∈ d.table.opcodes := by
  intro i hi
  obtain ⟨lexed, -, hp⟩ := ok_of_bind h
  obtain ⟨l, -, hl⟩ := mem_of_programOf hp hi
  unfold TokenTable.instructionOf at hl
  split at hl
  · next op hop =>
    cases hl
    exact TokenTable.mem_opcodes_of_opcodeOf? (TokenTable.opcodeOf_eq_ok_iff.1 hop)
  · contradiction

theorem read_of_compile (hm : d.surface.mode = .scan) {source : String} {p : Program}
    (h : d.compile source = .ok p) (hi : i ∈ p) : d.Read i := by
  obtain ⟨r, hlex, hp⟩ := ok_of_bind h
  obtain ⟨l, hl, hli⟩ := mem_of_programOf hp hi
  obtain ⟨stop, hholds⟩ := TokenTable.exists_holds_of_lex hm hlex hl
  exact read_of_holds hholds hli

/-! ### Writing what was read -/

/-- A literal that was read ends at the closing token that is written behind it, if the opcode
that closes it has this token only. -/
theorem endsOnly_of_firstToken {t : TokenTable} {e : TokenTable.Entry} (he : e ∈ t.entries)
    (ha : e.aliases = [e.canonical]) {text back : List Char} {close : String}
    (h : FirstToken e.aliases (text ++ (close.toList ++ back)) text close back) :
    t.EndsOnly e.op (String.ofList text) := by
  intro e' he' ho u hu k hk
  obtain rfl := TokenTable.entry_unique he' he ho
  rw [String.toList_ofList] at hk ⊢
  have hm := h.mem
  rw [ha, List.mem_singleton] at hm hu
  rw [hm] at h
  subst hu
  have hle : k ≤ (text ++ e'.canonical.toList).length := by
    rw [List.length_append]
    omega
  constructor
  · intro hp
    refine h.none_before e'.canonical h.mem k hk ?_
    rw [← List.append_assoc, List.drop_append_of_le_length hle]
    exact hp.trans (List.prefix_append _ back)
  · intro hp
    have hlen := hp.length_le
    rw [List.length_drop, List.length_append] at hlen
    omega

/-- A literal that the opcode opens in the source can be written in the target: it ends at the same
token, and there at no other. -/
def LiteralsFit (source target : Setting) (op : Opcode) : Prop :=
  ∀ r ∈ source.surface.regionOpenedBy op, r.kind = .literal →
    ∃ r' ∈ target.surface.regionOpenedBy op, r'.kind = .literal ∧
      ∃ e ∈ target.table.entries, e.op = r'.closer ∧ e.aliases = [e.canonical] ∧
        source.table.aliases? r.closer = some e.aliases

instance (source target : Setting) (op : Opcode) : Decidable (source.LiteralsFit target op) :=
  inferInstanceAs (Decidable (∀ r ∈ source.surface.regionOpenedBy op, _ → _))

/-- Of the opcodes that both have, those that open nothing in the source open nothing in the
target, and the literals fit. -/
def Compatible (source target : Setting) : Prop :=
  ∀ op ∈ source.table.opcodes, op ∈ target.table.opcodes →
    (source.surface.regionOpenedBy op = none → target.surface.regionOpenedBy op = none) ∧
      source.LiteralsFit target op

instance (source target : Setting) : Decidable (source.Compatible target) :=
  inferInstanceAs (Decidable (∀ op ∈ source.table.opcodes, _ → _))

variable {target : Setting}

theorem faithful_of_read (hc : d.Compatible target) (hi : d.Read i)
    (ho : i.op ∈ target.table.opcodes) : target.Faithful i := by
  obtain ⟨hop, hi⟩ := hi
  refine ⟨ho, ?_⟩
  cases hr : d.surface.regionOpenedBy i.op with
  | none =>
    rw [hr] at hi
    rw [(hc i.op hop ho).1 hr]
    exact hi
  | some region =>
    rw [hr] at hi
    obtain ⟨hk, text, close, back, hl, hf⟩ := hi
    obtain ⟨region', hr', hk', e, he, hoc, ha, hs⟩ := (hc i.op hop ho).2 region hr hk
    have hr' : target.surface.regionOpenedBy i.op = some region' := hr'
    rw [hs, Option.getD_some] at hf
    rw [hr']
    exact ⟨hk', String.ofList text, hl, hoc ▸ endsOnly_of_firstToken he ha hf⟩

/-! ### Conversion -/

/-- Source text that compiles is converted unless the target lacks one of its opcodes, and the
converted text compiles to the same program. -/
theorem convert_of_compile (hm : d.surface.mode = .scan) (ht : target.Unambiguous)
    (hc : d.Compatible target) {source : String} {p : Program} (h : d.compile source = .ok p) :
    match p.toList.find? fun i => !target.table.contains i.op with
    | none => ∃ text, d.convert target source = .ok text ∧ target.compile text = .ok p
    | some i => d.convert target source = .error (.unknownOpcode i.op) := by
  have hconv : d.convert target source = target.render p := by
    unfold convert
    rw [h]
    rfl
  rw [hconv]
  cases hf : p.toList.find? fun i => !target.table.contains i.op with
  | none =>
    have hp : ∀ i ∈ p, target.Faithful i := by
      intro i hi
      have hn := List.find?_eq_none.1 hf i (Array.mem_toList_iff.2 hi)
      have ho : i.op ∈ target.table.opcodes := by
        rw [← target.table.contains_iff]
        simpa using hn
      exact faithful_of_read hc (read_of_compile hm h hi) ho
    obtain ⟨text, _, hr, _, _, hcomp⟩ := compile_of_render ht hp
    exact ⟨text, hr, hcomp⟩
  | some i =>
    show target.table.writeProgram target.surface p = _
    rw [TokenTable.writeProgram_eq ht.closers, hf]

end Setting

end TapeDialects
