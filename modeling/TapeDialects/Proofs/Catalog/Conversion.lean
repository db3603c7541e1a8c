import TapeDialects.Catalog
import TapeDialects.Proofs.Program.Reading

/-!
# Conversion between dialects of the catalog

Every dialect of the catalog reads what it has written (`unambiguous`), and of any two of them
one can write what the other has read, as far as it has the opcodes (`compatible`). Where tokens
begin longer tokens it is the longer ones that are written, or the separator tells them apart.
A conversion therefore keeps the program, and it fails only at an opcode that the target lacks
(`compile_of_convert`).
-/

namespace TapeDialects.Catalog

/- The kernel has to decode the tokens here, since they are compared character by character. -/
theorem unambiguous : ∀ d ∈ dialects, d.toSetting.Unambiguous := by decide +kernel

theorem compatible : ∀ d ∈ dialects, ∀ d' ∈ dialects, d.toSetting.Compatible d'.toSetting := by
  decide +kernel

theorem mem_of_dialect {name : String} {d : Dialect} (h : dialect name = .ok d) :
    d ∈ dialects := by
  unfold dialect find? at h
  cases hf : dialects.find? fun d => d.name == name with
  | none =>
    rw [hf] at h
    contradiction
  | some d' =>
    rw [hf] at h
    cases h
    exact List.mem_of_find?_eq_some hf

/-- A text that is converted compiles to the program of its source, and a source that compiles is
converted unless an opcode is missing from the target; the first such opcode is reported. -/
theorem compile_of_convert {name name' : String} {d d' : Dialect} (hd : dialect name = .ok d)
    (hd' : dialect name' = .ok d') (source : String) :
    (∀ text, d.convert d'.toSetting source = .ok text →
      ∃ p, d.compile source = .ok p ∧ d'.compile text = .ok p) ∧
    ∀ p, d.compile source = .ok p → ∀ e, d.convert d'.toSetting source = .error e ↔
      ∃ i, (p.toList.find? fun i => !d'.table.contains i.op) = some i ∧
        e = .unknownOpcode i.op := by
  have hm := mem_of_dialect hd
  have hm' := mem_of_dialect hd'
  have hs := (unambiguous d hm).scans
  have hu := unambiguous d' hm'
  have hc := compatible d hm d' hm'
  constructor
  · intro text ht
    obtain ⟨p, hp, hr⟩ := ok_of_bind ht
    have h := Setting.convert_of_compile hs hu hc hp
    cases hf : p.toList.find? fun i => !d'.table.contains i.op with
    | none =>
      rw [hf] at h
      obtain ⟨text', ht', hp'⟩ := h
      rw [ht] at ht'
      cases ht'
      exact ⟨p, hp, hp'⟩
    | some i =>
      rw [hf] at h
      rw [ht] at h
      contradiction
  · intro p hp e
    have h := Setting.convert_of_compile hs hu hc hp
    cases hf : p.toList.find? fun i => !d'.table.contains i.op with
    | none =>
      rw [hf] at h
      obtain ⟨text, ht, _⟩ := h
      rw [ht]
      simp
    | some i =>
      rw [hf] at h
      have h : d.convert d'.toSetting source = .error (.unknownOpcode i.op) := h
      rw [h]
      simp [eq_comm]

/-- The token of `get` occurs in this source across the border between those of `inc` and `put`. -/
theorem compile_of_convert_kq_nagato :
    dialect "kq" = .ok kq ∧ dialect "nagato" = .ok nagato ∧
      kq.convert nagato.toSetting "ﾀﾞｧﾀﾞｧｼｴﾘﾀﾞｧ" = .ok "…。………………" ∧
      ∃ p, kq.compile "ﾀﾞｧﾀﾞｧｼｴﾘﾀﾞｧ" = .ok p ∧ nagato.compile "…。………………" = .ok p := by
  have hr : kq.render (Program.ofOpcodes [.inc, .put]) = .ok "ﾀﾞｧﾀﾞｧｼｴﾘﾀﾞｧ" := by decide +kernel
  have hr' : nagato.render (Program.ofOpcodes [.inc, .put]) = .ok "…。………………" := by
    decide +kernel
  have hd : dialect "kq" = .ok kq := rfl
  have hd' : dialect "nagato" = .ok nagato := rfl
  have hc := Setting.compile_eq_of_render (unambiguous kq (mem_of_dialect hd))
    (Setting.faithful_ofOpcodes (by decide)) hr
  have hconv : kq.convert nagato.toSetting "ﾀﾞｧﾀﾞｧｼｴﾘﾀﾞｧ" = .ok "…。………………" := by
    unfold Setting.convert
    rw [hc]
    exact hr'
  exact ⟨hd, hd', hconv, (compile_of_convert hd hd' _).1 _ hconv⟩

end TapeDialects.Catalog
