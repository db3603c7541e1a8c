import TapeDialects.Proofs.Program.Reading

/-!
# Source texts that compile

Nothing but a comment that is never closed keeps a scanned text from being a program: what the
scan finds are tokens of the table, and each of them has an owner. Where the surface has no
regions, every text compiles (`compile_of_no_regions`).
-/

namespace TapeDialects

namespace TokenTable

variable {t : TokenTable}

theorem programOf_of_mem {ls : List Lexeme} (h : ∀ l ∈ ls, l.text ∈ t.allTokens) :
    ∃ p, t.programOf ls = .ok p := by
  have hm : ∃ is, ls.mapM t.instructionOf = .ok is := by
    induction ls with
    | nil => exact ⟨[], rfl⟩
    | cons l ls ih =>
      obtain ⟨is, his⟩ := ih fun l' hl' => h l' (List.mem_cons_of_mem l hl')
      obtain ⟨op, hop⟩ := opcodeOf?_of_mem (h l (List.mem_cons_self ..))
      have hi : t.instructionOf l = .ok ⟨op, l.literal⟩ := by
        rw [instructionOf, opcodeOf_eq_ok_iff.2 hop]
      refine ⟨⟨op, l.literal⟩ :: is, ?_⟩
      rw [List.mapM_cons, hi, his]
      rfl
  obtain ⟨is, his⟩ := hm
  exact ⟨is.toArray, by rw [programOf, his]⟩

end TokenTable

namespace Setting

variable {d : Setting} {source : String}

theorem compile_of_lex {r : Lexed} (h : d.lex source = .ok r)
    (ht : ∀ l ∈ r.lexemes, l.text ∈ d.table.allTokens) : ∃ p, d.compile source = .ok p := by
  obtain ⟨p, hp⟩ := TokenTable.programOf_of_mem ht
  exact ⟨p, by rw [compile, h]; exact hp⟩

theorem compile_of_lex_scan (hm : d.surface.mode = .scan) {r : Lexed}
    (h : d.lex source = .ok r) : ∃ p, d.compile source = .ok p := by
  refine compile_of_lex h fun l hl => ?_
  obtain ⟨stop, hholds⟩ := TokenTable.exists_holds_of_lex hm h hl
  exact hholds.token_mem

theorem compile_of_no_regions (hm : d.surface.mode = .scan) (hr : d.surface.regions = [])
    (source : String) : ∃ p, d.compile source = .ok p := by
  obtain ⟨r, h⟩ := TokenTable.exists_lex_eq_ok (t := d.table) hm hr source
  exact compile_of_lex_scan hm h

end Setting

end TapeDialects
