import TapeDialects.Dialect.Basic
import TapeDialects.Proofs.Program.Compiling

/-!
# Comments that are never closed

A source compiles unless it opens a comment and never closes it. Every token that is found, by a
scan or among the pieces of a delimited text, has an owner, so that no lexeme is without an opcode; the
scan itself fails only at a comment without an end (`Dialect.compile_or_unclosedComment`).
-/

namespace TapeDialects

namespace TokenTable

variable {t : TokenTable} {s : Surface} {source : String}

theorem mem_lexPieces {l : Lexeme} (hl : l ∈ (t.lexPieces s source).lexemes) :
    l.text ∈ t.allTokens ∧ l.literal = none := by
  obtain ⟨piece, -, hp⟩ := List.mem_filterMap.1 hl
  split at hp
  · next hop =>
    cases hp
    obtain ⟨op, hop⟩ := Option.isSome_iff_exists.1 hop
    exact ⟨mem_allTokens_of_opcodeOf? hop, rfl⟩
  · contradiction

end TokenTable

namespace Setting

variable {d : Setting} {source : String}

theorem compile_of_lex_error {e : Error} (h : d.lex source = .error e) :
    d.compile source = .error e := by
  rw [compile, h]
  rfl

theorem read_of_compile_pieces (hm : d.surface.mode = .delimited) (hr : d.surface.regions = [])
    {p : Program} (h : d.compile source = .ok p) {i : Instruction} (hi : i ∈ p) : d.Read i := by
  refine ⟨known_of_compile h i hi, ?_⟩
  have hn : d.surface.regionOpenedBy i.op = none := by simp [Surface.regionOpenedBy, hr]
  rw [hn]
  obtain ⟨r, hlex, hp⟩ := ok_of_bind h
  obtain ⟨l, hl, hli⟩ := mem_of_programOf hp hi
  rw [lex, TokenTable.lex, hm] at hlex
  cases hlex
  unfold TokenTable.instructionOf at hli
  split at hli
  · cases hli
    exact (TokenTable.mem_lexPieces hl).2
  · contradiction

/-- An instruction that was read opens no comment, and has a literal just if it opens one. -/
theorem Read.opens {i : Instruction} (h : d.Read i) :
    i.op ∈ d.table.opcodes ∧
      (∀ region ∈ d.surface.regionOpenedBy i.op, region.kind ≠ .comment) ∧
      (i.literal.isSome ↔ ∃ region ∈ d.surface.regionOpenedBy i.op, region.kind = .literal) := by
  obtain ⟨hop, hi⟩ := h
  refine ⟨hop, ?_⟩
  cases hr : d.surface.regionOpenedBy i.op with
  | none =>
    rw [hr] at hi
    simp [hi]
  | some region =>
    rw [hr] at hi
    obtain ⟨hk, text, -, -, hl, -⟩ := hi
    simp [hk, hl]

end Setting

namespace Dialect

/-- A source compiles, or it opens a comment and never closes it. -/
theorem compile_or_unclosedComment (d : Dialect) (source : String) :
    (∃ p, d.compile source = .ok p ∧ ∀ i ∈ p, i.op ∈ d.table.opcodes ∧
      (∀ region ∈ d.surface.regionOpenedBy i.op, region.kind ≠ .comment) ∧
      (i.literal.isSome ↔ ∃ region ∈ d.surface.regionOpenedBy i.op, region.kind = .literal)) ∨
    ∃ o, d.compile source = .error (.unterminatedComment o) ∧ d.surface.mode = .scan ∧
      d.table.UnclosedComment d.surface source o := by
  cases hm : d.surface.mode with
  | delimited =>
    have hlex : d.lex source = .ok (d.table.lexPieces d.surface source) := by
      rw [Setting.lex, TokenTable.lex, hm]
    obtain ⟨p, hp⟩ := Setting.compile_of_lex hlex fun l hl => (TokenTable.mem_lexPieces hl).1
    have hr := d.regions_of_delimited hm
    exact .inl ⟨p, hp, fun i hi => (Setting.read_of_compile_pieces hm hr hp hi).opens⟩
  | scan =>
    have hs : d.table.Scans d.surface source 0 (d.lex source) :=
      (TokenTable.lex_eq_iff_scans hm).1 rfl
    cases hlex : d.lex source with
    | ok r =>
      obtain ⟨p, hp⟩ := Setting.compile_of_lex_scan hm hlex
      exact .inl ⟨p, hp, fun i hi => (Setting.read_of_compile hm hp hi).opens⟩
    | error e =>
      obtain ⟨o, rfl, hu⟩ := TokenTable.unclosedComment_of_scans (hlex ▸ hs)
      exact .inr ⟨o, Setting.compile_of_lex_error hlex, rfl, hu⟩

end Dialect

end TapeDialects
