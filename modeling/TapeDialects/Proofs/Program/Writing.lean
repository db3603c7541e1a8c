import TapeDialects.Dialect.Setting
import TapeDialects.Proofs.TokenTable.Lookup

/-!
# Written programs

What writing a program gives, or why it fails: every opcode of the table has a written text, and
the first instruction whose opcode is missing from the table is reported (`writeProgram_eq`).
The text of a program is that of its first instruction, and then the separator and the text of
each further one (`toList_intercalate_cons`).
-/

namespace TapeDialects

theorem mapM_eq_find? {α β ε : Type} {f : α → Except ε β} {p : α → Bool} {g : α → β}
    {e : α → ε} {xs : List α} (hg : ∀ x ∈ xs, p x = true → f x = .ok (g x))
    (he : ∀ x ∈ xs, p x = false → f x = .error (e x)) :
    xs.mapM f =
      match xs.find? (!p ·) with
      | none => .ok (xs.map g)
      | some x => .error (e x) := by
  induction xs with
  | nil => rfl
  | cons x xs ih =>
    have ih' := ih (fun y hy => hg y (List.mem_cons_of_mem x hy))
      fun y hy => he y (List.mem_cons_of_mem x hy)
    rw [List.mapM_cons, List.find?_cons]
    cases hp : p x with
    | false =>
      rw [he x (List.mem_cons_self ..) hp]
      rfl
    | true =>
      rw [hg x (List.mem_cons_self ..) hp, ih']
      cases hf : xs.find? (!p ·) <;> rfl

theorem ok_of_bind {α β ε : Type} {x : Except ε α} {f : α → Except ε β} {b : β}
    (h : (x >>= f) = .ok b) : ∃ a, x = .ok a ∧ f a = .ok b := by
  cases x with
  | error e => contradiction
  | ok a => exact ⟨a, rfl, h⟩

theorem mem_of_mapM {α β ε : Type} {f : α → Except ε β} {xs : List α} {ys : List β}
    (h : xs.mapM f = .ok ys) {y : β} (hy : y ∈ ys) : ∃ x ∈ xs, f x = .ok y := by
  induction xs generalizing ys with
  | nil =>
    cases h
    contradiction
  | cons x xs ih =>
    rw [List.mapM_cons] at h
    obtain ⟨b, hx, h⟩ := ok_of_bind h
    obtain ⟨bs, hxs, h⟩ := ok_of_bind h
    cases h
    rcases List.mem_cons.1 hy with rfl | hy
    · exact ⟨x, List.mem_cons_self .., hx⟩
    · obtain ⟨z, hz, hf⟩ := ih hxs hy
      exact ⟨z, List.mem_cons_of_mem x hz, hf⟩

theorem length_of_mapM {α β ε : Type} {f : α → Except ε β} {xs : List α} {ys : List β}
    (h : xs.mapM f = .ok ys) : ys.length = xs.length := by
  induction xs generalizing ys with
  | nil =>
    cases h
    rfl
  | cons x xs ih =>
    rw [List.mapM_cons] at h
    obtain ⟨b, -, h⟩ := ok_of_bind h
    obtain ⟨bs, hxs, h⟩ := ok_of_bind h
    cases h
    rw [List.length_cons, List.length_cons, ih hxs]

namespace TokenTable

variable {t : TokenTable} {op : Opcode} {e : Entry}

/-! ### Texts of instructions -/

def written (t : TokenTable) (op : Opcode) : String :=
  ((t.aliases? op).getD []).headD ""

theorem written_entry (h : e ∈ t.entries) : t.written e.op = e.canonical := by
  rw [written, aliases?_entry h]
  rfl

theorem written_mem (h : op ∈ t.opcodes) : t.written op ∈ t.allTokens := by
  obtain ⟨e, he, rfl⟩ := entry_of_mem_opcodes h
  rw [written_entry he]
  exact mem_allTokens he (canonical_mem_aliases he)

theorem tokenOf_zero (h : op ∈ t.opcodes) : t.tokenOf op 0 = .ok (t.written op) := by
  obtain ⟨e, he, rfl⟩ := entry_of_mem_opcodes h
  rw [tokenOf_entry he, written_entry he]

def writtenText (t : TokenTable) (s : Surface) (i : Instruction) : String :=
  match s.literalOpenedBy i.op, i.literal with
  | some region, some literal => t.written i.op ++ literal ++ t.written region.closer
  | _, _ => t.written i.op

variable {s : Surface}

/-- If the first region that an opcode opens is a literal, it is the one that is written. -/
theorem literalOpenedBy_eq {region : Region} (h : s.regionOpenedBy op = some region)
    (hk : region.kind = .literal) : s.literalOpenedBy op = some region := by
  unfold Surface.regionOpenedBy at h
  unfold Surface.literalOpenedBy
  obtain ⟨ho, front, back, hr, hn⟩ := List.find?_eq_some_iff_append.1 h
  refine List.find?_eq_some_iff_append.2 ⟨by simp [ho, hk], front, back, hr, ?_⟩
  intro r hm
  have := hn r hm
  simp_all

theorem writtenText_plain {i : Instruction} (h : i.literal = none) :
    t.writtenText s i = t.written i.op := by
  unfold writtenText
  rw [h]
  split
  · contradiction
  · rfl

theorem writtenText_literal {i : Instruction} {region : Region} {text : String}
    (h : s.regionOpenedBy i.op = some region) (hk : region.kind = .literal)
    (hl : i.literal = some text) :
    t.writtenText s i = t.written i.op ++ text ++ t.written region.closer := by
  unfold writtenText
  rw [literalOpenedBy_eq h hk, hl]

theorem writeInstruction_eq (hs : ∀ r ∈ s.regions, r.closer ∈ t.opcodes) {i : Instruction}
    (h : i.op ∈ t.opcodes) : t.writeInstruction s i = .ok (t.writtenText s i) := by
  unfold writeInstruction writtenText
  rw [tokenOf_zero h]
  cases hr : s.literalOpenedBy i.op with
  | none => rfl
  | some region =>
    have hm : region ∈ s.regions := List.mem_of_find?_eq_some hr
    cases i.literal with
    | none => rfl
    | some literal =>
      show (t.tokenOf region.closer 0 >>= _) = _
      rw [tokenOf_zero (hs region hm)]
      rfl

theorem writeInstruction_unknown {i : Instruction} (h : i.op ∉ t.opcodes) :
    t.writeInstruction s i = .error (.unknownOpcode i.op) := by
  unfold writeInstruction
  rw [tokenOf_unknown h]
  rfl

/-- Writing a program fails at the first opcode that is missing from the table, and at nothing
else. -/
theorem writeProgram_eq (hs : ∀ r ∈ s.regions, r.closer ∈ t.opcodes) (p : Program) :
    t.writeProgram s p =
      match p.toList.find? fun i => !t.contains i.op with
      | none => .ok (s.separator.intercalate (p.toList.map (t.writtenText s)))
      | some i => .error (.unknownOpcode i.op) := by
  have hg : ∀ i ∈ p.toList, t.contains i.op = true →
      t.writeInstruction s i = .ok (t.writtenText s i) :=
    fun i _ h => writeInstruction_eq hs ((t.contains_iff i.op).1 h)
  have he : ∀ i ∈ p.toList, t.contains i.op = false →
      t.writeInstruction s i = .error (.unknownOpcode i.op) := by
    intro i _ h
    refine writeInstruction_unknown fun hm => ?_
    rw [(t.contains_iff i.op).2 hm] at h
    contradiction
  rw [writeProgram, mapM_eq_find? hg he]
  cases p.toList.find? fun i => !t.contains i.op <;> rfl

end TokenTable

theorem Setting.render_eq_of_known {d : Setting}
    (hs : ∀ r ∈ d.surface.regions, r.closer ∈ d.table.opcodes) {p : Program}
    (hp : ∀ i ∈ p, i.op ∈ d.table.opcodes) :
    d.render p = .ok (d.surface.separator.intercalate
      (p.toList.map (d.table.writtenText d.surface))) := by
  rw [render, TokenTable.writeProgram_eq hs]
  have hf : (p.toList.find? fun i => !d.table.contains i.op) = none := by
    rw [List.find?_eq_none]
    intro i hi
    have := (d.table.contains_iff i.op).2 (hp i (Array.mem_toList_iff.1 hi))
    simp [this]
  rw [hf]

/-! ### Texts of programs -/

/-- What follows a text to which further ones are joined. -/
def joined (separator : String) (parts : List String) : List Char :=
  parts.flatMap fun q => separator.toList ++ q.toList

theorem joined_cons (separator q : String) (parts : List String) :
    joined separator (q :: parts) =
      separator.toList ++ (q.toList ++ joined separator parts) := by
  rw [joined, List.flatMap_cons, List.append_assoc]
  rfl

theorem toList_intercalate_cons (separator q : String) (parts : List String) :
    (separator.intercalate (q :: parts)).toList = q.toList ++ joined separator parts := by
  induction parts generalizing q with
  | nil => simp [joined]
  | cons r parts ih =>
    rw [String.intercalate_cons_cons, String.toList_append, String.toList_append, ih, joined_cons]
    simp only [List.append_assoc]

end TapeDialects
