import TapeDialects.Proofs.TokenTable.Lookup

/-!
# Tables under replacement

The tokens of a table are replaced in place: a replacement that fails leaves the table as it was,
and one that succeeds gives to each opcode the tokens at its position. Whatever replacements a
table has been through, its opcodes are those that were declared, in their order, and its index
agrees with its entries (`TokenTable.consistent_of_reached`).

A replacement is checked as a whole before any entry changes, so nothing has to be said about
tables of which some entries are new and others old.
-/

namespace TapeDialects.TokenTable

variable {t u : TokenTable} {ops : List Opcode} {op : Opcode} {token : String}
  {given : List (List String)} {es : List Entry}

/-! ### Replacing -/

theorem map_aliases_withAliases (h : given.length = es.length) :
    (withAliases es given).map (·.aliases) = given := by
  induction es generalizing given with
  | nil => simpa [withAliases, eq_comm] using h
  | cons e es ih =>
    cases given with
    | nil => simp at h
    | cons tokens given =>
      have := ih (Nat.succ.inj h)
      simpa [withAliases] using this

/-- A replacement is refused for the number of its lists, or for a list without tokens or with an
empty one. -/
theorem exists_replaceAliases_iff :
    (∃ u, t.replaceAliases given = .ok u) ↔
      given.length = t.opcodes.length ∧ ∀ tokens ∈ given, tokens ≠ [] ∧ "" ∉ tokens := by
  have hops : t.opcodes.length = t.entries.length := List.length_map _
  constructor
  · rintro ⟨u, h⟩
    obtain ⟨hl, he⟩ := entries_replaceAliases h
    refine ⟨hl.trans hops.symm, fun tokens ht => ?_⟩
    rw [← map_aliases_withAliases hl, ← he] at ht
    obtain ⟨e, he, rfl⟩ := List.mem_map.1 ht
    exact u.entries_wellFormed e he
  · rintro ⟨hl, hw⟩
    rw [hops] at hl
    unfold replaceAliases
    rw [dif_pos hl]
    split
    · next flaw hf =>
      obtain ⟨e, he, hflaw⟩ := List.exists_of_findSome?_eq_some hf
      have ht := List.mem_map_of_mem (f := (·.aliases)) he
      rw [map_aliases_withAliases hl] at ht
      rw [e.flaw?_eq_none_iff.2 (hw _ ht)] at hflaw
      contradiction
    · exact ⟨_, rfl⟩

/-- A refusal names the two numbers, or the opcode whose list has the flaw. -/
theorem error_replaceAliases {e : Error} (h : t.replaceAliases given = .error e) :
    if given.length = t.opcodes.length then
      ∃ (i : Nat) (op : Opcode) (tokens : List String), t.opcodes[i]? = some op ∧
        given[i]? = some tokens ∧ Entry.flaw? ⟨op, tokens⟩ = some e
    else e = .tokenCountMismatch t.opcodes.length given.length := by
  have hops : t.opcodes.length = t.entries.length := List.length_map _
  unfold replaceAliases at h
  rw [hops]
  split at h
  · next hl =>
    rw [if_pos hl]
    split at h
    · next flaw hf =>
      cases h
      obtain ⟨x, hx, hflaw⟩ := List.exists_of_findSome?_eq_some hf
      obtain ⟨i, hi, rfl⟩ := List.mem_iff_getElem.1 hx
      simp only [withAliases, List.getElem_zipWith, List.length_zipWith] at hi hflaw
      refine ⟨i, t.entries[i].op, given[i], ?_, List.getElem?_eq_getElem (by omega), hflaw⟩
      rw [opcodes, List.getElem?_map, List.getElem?_eq_getElem (by omega)]
      rfl
    · contradiction
  · next hl =>
    rw [if_neg hl]
    cases h
    rfl

theorem aliases?_replaceAliases (h : t.replaceAliases given = .ok u) {i : Nat}
    (ho : t.opcodes[i]? = some op) : u.aliases? op = given[i]? := by
  obtain ⟨hl, he⟩ := entries_replaceAliases h
  have hi : i < u.entries.length := by
    have := (List.getElem?_eq_some_iff.1 ho).1
    rw [← opcodes_replaceAliases h] at this
    simpa [opcodes] using this
  rw [← opcodes_replaceAliases h] at ho
  have hop : u.entries[i].op = op := by simpa [opcodes, hi] using ho
  rw [← hop, aliases?_entry (List.getElem_mem hi), ← map_aliases_withAliases hl, ← he]
  simp [hi]

namespace Replacement

variable {r : Replacement}

theorem replaced_eq (r : Replacement) (t : TokenTable) :
    r.replaced t = t.replaceAliases r.aliases := by
  cases r <;> rfl

theorem run_eq_ok_iff : r.run t = (.ok (), u) ↔ t.replaceAliases r.aliases = .ok u := by
  unfold run
  rw [replaced_eq]
  cases t.replaceAliases r.aliases with
  | ok v =>
    constructor
    · intro h
      cases h
      rfl
    · intro h
      cases h
      rfl
  | error e => exact ⟨(nomatch ·), (nomatch ·)⟩

theorem run_eq_error_iff {e : Error} :
    r.run t = (.error e, u) ↔ t.replaceAliases r.aliases = .error e ∧ u = t := by
  unfold run
  rw [replaced_eq]
  cases t.replaceAliases r.aliases with
  | ok v => exact ⟨(nomatch ·), fun h => nomatch h.1⟩
  | error e' =>
    constructor
    · intro h
      cases h
      exact ⟨rfl, rfl⟩
    · rintro ⟨h, rfl⟩
      cases h
      rfl

theorem opcodes_run (r : Replacement) (t : TokenTable) : (r.run t).2.opcodes = t.opcodes := by
  cases hr : r.run t with
  | mk x u =>
    cases x with
    | ok _ => exact opcodes_replaceAliases (run_eq_ok_iff.1 hr)
    | error e => rw [(run_eq_error_iff.1 hr).2]

end Replacement

/-! ### Entries and index -/

def Lists (t : TokenTable) (op : Opcode) (token : String) : Prop :=
  ∃ tokens, t.aliases? op = some tokens ∧ token ∈ tokens

/-- The opcode at the index is the first one that has the token. -/
structure Owner (t : TokenTable) (token : String) (i : Nat) (op : Opcode) : Prop where
  at_index : t.opcodes[i]? = some op
  lists : t.Lists op token
  first : ∀ j op', j < i → t.opcodes[j]? = some op' → ¬t.Lists op' token

/-- What the look-ups of a table with these opcodes say together. -/
structure Consistent (ops : List Opcode) (t : TokenTable) : Prop where
  opcodes_eq : t.opcodes = ops
  nodup : ops.Nodup
  tokens : ∀ op ∈ ops, ∃ tokens, t.aliases? op = some tokens ∧ tokens ≠ [] ∧ "" ∉ tokens
  owner : ∀ token op, t.opcodeOf token = .ok op ↔ ∃ i, t.Owner token i op
  unknown : ∀ token, t.opcodeOf token = .error (.unknownToken token) ↔
    ∀ op ∈ ops, ¬t.Lists op token
  position : ∀ op i, t.position? op = some i ↔ ops[i]? = some op

theorem lists_entry {e : Entry} (h : e ∈ t.entries) : t.Lists e.op token ↔ token ∈ e.aliases := by
  unfold Lists
  rw [aliases?_entry h]
  simp

theorem opcodeOf?_eq_some_iff : t.opcodeOf? token = some op ↔ ∃ i, t.Owner token i op := by
  rw [opcodeOf?_eq_find?, Option.map_eq_some_iff]
  constructor
  · rintro ⟨e, he, rfl⟩
    obtain ⟨ht, i, hi, rfl, hb⟩ := List.find?_eq_some_iff_getElem.1 he
    refine ⟨i, by simp [opcodes, hi], (lists_entry (List.getElem_mem hi)).2 (by simpa using ht), ?_⟩
    intro j op' hj ho hl
    have hjt : j < t.entries.length := Nat.lt_trans hj hi
    obtain rfl : t.entries[j].op = op' := by simpa [opcodes, hjt] using ho
    have := (lists_entry (List.getElem_mem hjt)).1 hl
    simpa [this] using hb j hj
  · rintro ⟨i, ho, hl, hf⟩
    have hi : i < t.entries.length := by
      simpa [opcodes] using (List.getElem?_eq_some_iff.1 ho).1
    obtain rfl : t.entries[i].op = op := by simpa [opcodes, hi] using ho
    refine ⟨t.entries[i], List.find?_eq_some_iff_getElem.2 ⟨?_, i, hi, rfl, fun j hj => ?_⟩, rfl⟩
    · simpa using (lists_entry (List.getElem_mem hi)).1 hl
    · have hjt : j < t.entries.length := Nat.lt_trans hj hi
      have hn := hf j t.entries[j].op hj (by simp [opcodes, hjt])
      rw [lists_entry (List.getElem_mem hjt)] at hn
      simpa using hn

theorem opcodeOf?_eq_none_iff : t.opcodeOf? token = none ↔ ∀ op ∈ t.opcodes, ¬t.Lists op token := by
  rw [opcodeOf?_eq_find?, Option.map_eq_none_iff, List.find?_eq_none]
  constructor
  · intro h op ho
    obtain ⟨e, he, rfl⟩ := entry_of_mem_opcodes ho
    rw [lists_entry he]
    simpa using h e he
  · intro h e he
    have := h e.op (mem_opcodes he)
    rw [lists_entry he] at this
    simpa using this

theorem opcodeOf_eq_error_iff :
    t.opcodeOf token = .error (.unknownToken token) ↔ t.opcodeOf? token = none := by
  unfold opcodeOf
  cases t.opcodeOf? token <;> simp

theorem consistent (t : TokenTable) : t.Consistent t.opcodes where
  opcodes_eq := rfl
  nodup := t.opcodes_nodup
  tokens := by
    intro op ho
    obtain ⟨e, he, rfl⟩ := entry_of_mem_opcodes ho
    exact ⟨e.aliases, aliases?_entry he, t.entries_wellFormed e he⟩
  owner := fun token op => opcodeOf_eq_ok_iff.trans opcodeOf?_eq_some_iff
  unknown := fun token => opcodeOf_eq_error_iff.trans opcodeOf?_eq_none_iff
  position := by
    intro op i
    rw [position?_eq_some_iff, opcodeAt?, opcodes, List.getElem?_map]

/-! ### Histories -/

/-- The table is reached from one that was declared with these opcodes, by replacements of which
any may have failed. -/
inductive Reached : List Opcode → TokenTable → Prop
  | ofEntries {es : List Entry} {t : TokenTable} (h : ofEntries es = .ok t) :
      Reached (es.map (·.op)) t
  | ofCoreTokens {tokens : List String} {t : TokenTable} (hl : tokens.length = Opcode.core.length)
      (h : ofCoreTokens tokens = .ok t) : Reached Opcode.core t
  | replace {ops : List Opcode} {t : TokenTable} (h : Reached ops t) (r : Replacement) :
      Reached ops (r.run t).2

theorem entries_ofEntries (h : ofEntries es = .ok t) : t.entries = es := by
  unfold ofEntries at h
  split at h
  · contradiction
  · cases h
    rfl

theorem map_op_coreEntries (h : given.length = Opcode.core.length) :
    (coreEntries given).map (·.op) = Opcode.core := by
  have hw : coreEntries given = withAliases (Opcode.core.map fun op => ⟨op, []⟩) given := by
    rw [coreEntries, withAliases, List.zipWith_map_left]
  rw [hw, map_op_withAliases _ _ (by simpa using h), List.map_map]
  exact List.map_id _

theorem Reached.opcodes_eq (h : Reached ops t) : t.opcodes = ops := by
  induction h with
  | ofEntries h => rw [opcodes, entries_ofEntries h]
  | ofCoreTokens hl h =>
    rw [opcodes, entries_ofEntries h]
    exact map_op_coreEntries (by simpa using hl)
  | replace _ r ih => rw [r.opcodes_run, ih]

/-- Whatever replacements a declared table has been through: its opcodes are the declared ones, in
their order, and its entries and its index agree. The next replacement fails exactly if it has the
wrong number of lists, a list without tokens or an empty token; it then leaves the table, and names
the cause. Otherwise each opcode gets the list at its position. -/
theorem consistent_of_reached (h : Reached ops t) :
    t.Consistent ops ∧
    ∀ r : Replacement,
      ((∃ u, r.run t = (.ok (), u)) ↔
        r.aliases.length = ops.length ∧ ∀ tokens ∈ r.aliases, tokens ≠ [] ∧ "" ∉ tokens) ∧
      (∀ e u, r.run t = (.error e, u) → u = t ∧
        if r.aliases.length = ops.length then
          ∃ (i : Nat) (op : Opcode) (tokens : List String), ops[i]? = some op ∧
            r.aliases[i]? = some tokens ∧ Entry.flaw? ⟨op, tokens⟩ = some e
        else e = .tokenCountMismatch ops.length r.aliases.length) ∧
      ∀ u, r.run t = (.ok (), u) →
        u.opcodes = ops ∧ ∀ (i : Nat) op, ops[i]? = some op → u.aliases? op = r.aliases[i]? := by
  obtain rfl := h.opcodes_eq
  refine ⟨t.consistent, fun r => ⟨?_, ?_, ?_⟩⟩
  · simp only [Replacement.run_eq_ok_iff, exists_replaceAliases_iff]
  · intro e u hr
    obtain ⟨he, hu⟩ := Replacement.run_eq_error_iff.1 hr
    exact ⟨hu, error_replaceAliases he⟩
  · intro u hr
    have hu := Replacement.run_eq_ok_iff.1 hr
    exact ⟨opcodes_replaceAliases hu, fun i op ho => aliases?_replaceAliases hu ho⟩

/-- A table whose opcodes share a token, after a replacement that was refused for its second list
and one that was not: the shared token belongs to the opcode declared first. -/
theorem consistent_of_reached_shared_token :
    ∃ t, Reached [.nop, .inc] t ∧ t.opcodeOf "b" = .ok .nop ∧
      t.opcodeOf "a" = .error (.unknownToken "a") := by
  let t₀ := declare [⟨.nop, ["a", "b"]⟩, ⟨.inc, ["b"]⟩] (by decide)
  let refused := Replacement.full [["c"], []]
  let done := Replacement.full [["c", "b"], ["b", "b"]]
  have hdeclared : ofEntries t₀.entries = .ok t₀ := rfl
  have h₀ : Reached [.nop, .inc] t₀ := .ofEntries hdeclared
  have h₁ := h₀.replace refused
  obtain ⟨t, ht⟩ := ((consistent_of_reached h₁).2 done).1.2 (by decide)
  obtain ⟨ho, ha⟩ := ((consistent_of_reached h₁).2 done).2.2 t ht
  have h := h₁.replace done
  rw [ht] at h
  have hc := (consistent_of_reached h).1
  have hnop : t.aliases? .nop = some ["c", "b"] := ha 0 .nop rfl
  have hinc : t.aliases? .inc = some ["b", "b"] := ha 1 .inc rfl
  refine ⟨t, h, (hc.owner "b" .nop).2 ⟨0, ?_, ⟨_, hnop, by decide⟩, ?_⟩,
    (hc.unknown "a").2 ?_⟩
  · rw [ho]
    rfl
  · intro j op' hj
    contradiction
  · simp [Lists, hnop, hinc]

end TapeDialects.TokenTable
