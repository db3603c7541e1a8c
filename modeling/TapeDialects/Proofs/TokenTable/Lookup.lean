import Mathlib.Data.List.Nodup
import TapeDialects.TokenTable

/-!
# Looking up in a token table

What the look-ups of a table find, as facts about its entries: an opcode has the tokens and the
position of its entry, and a token belongs to the first entry that has it
(`TokenTable.opcodeOf?_eq_find?`).
-/

namespace TapeDialects.TokenTable

variable {t : TokenTable} {op : Opcode} {e e' : Entry}

/-! ### Entries by their opcode -/

theorem entry_of_mem_opcodes (h : op ∈ t.opcodes) : ∃ e ∈ t.entries, e.op = op :=
  List.mem_map.1 h

theorem mem_opcodes (h : e ∈ t.entries) : e.op ∈ t.opcodes := List.mem_map.2 ⟨e, h, rfl⟩

theorem entry_unique (h : e ∈ t.entries) (h' : e' ∈ t.entries) (ho : e.op = e'.op) : e = e' :=
  List.inj_on_of_nodup_map t.opcodes_nodup h h' ho

theorem aliases?_entry (h : e ∈ t.entries) : t.aliases? e.op = some e.aliases := by
  unfold aliases?
  cases hf : t.entries.find? fun x => x.op == e.op with
  | none =>
    have := List.find?_eq_none.1 hf e h
    simp at this
  | some x =>
    have hx : x.op = e.op := by simpa using List.find?_some hf
    rw [entry_unique (List.mem_of_find?_eq_some hf) h hx, Option.map_some]

theorem aliases?_eq_none (h : op ∉ t.opcodes) : t.aliases? op = none := by
  unfold aliases?
  rw [Option.map_eq_none_iff, List.find?_eq_none]
  intro e he ho
  have ho' : e.op = op := by simpa using ho
  exact h (ho' ▸ mem_opcodes he)

theorem canonical_mem_aliases (h : e ∈ t.entries) : e.canonical ∈ e.aliases := by
  have hw := (t.entries_wellFormed e h).1
  unfold Entry.canonical
  cases ha : e.aliases with
  | nil => contradiction
  | cons u us => simp

theorem mem_allTokens {u : String} (h : e ∈ t.entries) (hu : u ∈ e.aliases) :
    u ∈ t.allTokens :=
  List.mem_flatMap.2 ⟨e, h, hu⟩

theorem ne_empty_of_mem_allTokens {u : String} (h : u ∈ t.allTokens) : u.toList ≠ [] := by
  obtain ⟨e, he, hu⟩ := List.mem_flatMap.1 h
  intro hn
  have hz : u = "" := String.toList_eq_nil_iff.1 hn
  exact (t.entries_wellFormed e he).2 (hz ▸ hu)

theorem tokenOf_entry (h : e ∈ t.entries) : t.tokenOf e.op 0 = .ok e.canonical := by
  have hw := (t.entries_wellFormed e h).1
  unfold tokenOf Entry.canonical
  rw [aliases?_entry h]
  cases ha : e.aliases with
  | nil => contradiction
  | cons u us => rfl

theorem tokenOf_unknown (h : op ∉ t.opcodes) (i : Nat) :
    t.tokenOf op i = .error (.unknownOpcode op) := by
  rw [tokenOf, aliases?_eq_none h]

/-! ### Positions -/

theorem position?_eq_some_iff {k : Nat} : t.position? op = some k ↔ t.opcodeAt? k = some op := by
  simp only [position?, opcodeAt?, List.findIdx?_eq_some_iff_getElem, Option.map_eq_some_iff,
    List.getElem?_eq_some_iff, beq_iff_eq]
  constructor
  · rintro ⟨hk, ho, _⟩
    exact ⟨_, ⟨hk, rfl⟩, ho⟩
  · rintro ⟨e, ⟨hk, rfl⟩, ho⟩
    refine ⟨hk, ho, fun j hj he => ?_⟩
    have hjt : j < t.entries.length := Nat.lt_trans hj hk
    have hjk : j = k :=
      (List.getElem?_inj (by simpa using hjt) t.opcodes_nodup).1 (by simp [hjt, hk, he, ho])
    omega

theorem position?_of_mem (h : op ∈ t.opcodes) : ∃ k < t.size, t.position? op = some k := by
  obtain ⟨k, hk, ho⟩ := List.mem_iff_getElem.1 h
  have hk' : k < t.entries.length := by simpa [opcodes] using hk
  refine ⟨k, hk', position?_eq_some_iff.2 ?_⟩
  simpa [opcodeAt?, hk', opcodes] using ho

/-! ### Owners of tokens -/

theorem lookup_tokens (op : Opcode) (tokens : List String) (token : String) :
    (tokens.map (·, op)).lookup token = if token ∈ tokens then some op else none := by
  induction tokens with
  | nil => rfl
  | cons u us ih =>
    rw [List.map_cons, List.lookup_cons, ih]
    by_cases h : token = u
    · simp [h]
    · have hb : (token == u) = false := by simpa using h
      simp [h, hb]

theorem lookup_listings (es : List Entry) (token : String) :
    (listings es).lookup token = (es.find? fun e => token ∈ e.aliases).map (·.op) := by
  induction es with
  | nil => rfl
  | cons e es ih =>
    rw [listings, List.flatMap_cons, List.lookup_append, lookup_tokens, List.find?_cons]
    by_cases h : token ∈ e.aliases
    · simp [h]
    · simpa [h, listings] using ih

/-- The index answers with the first entry that has the token. -/
theorem opcodeOf?_eq_find? (t : TokenTable) (token : String) :
    t.opcodeOf? token = (t.entries.find? fun e => token ∈ e.aliases).map (·.op) := by
  rw [opcodeOf?_eq_lookup, lookup_listings]

theorem lookup_of_mem_nodup {α β : Type} [BEq α] [LawfulBEq α] {l : List (α × β)} {a : α} {b : β}
    (hn : (l.map Prod.fst).Nodup) (h : (a, b) ∈ l) : l.lookup a = some b := by
  obtain ⟨front, back, rfl⟩ := List.append_of_mem h
  refine List.lookup_eq_some_iff.2 ⟨front, back, rfl, fun x hx => ?_⟩
  rw [List.map_append, List.nodup_append] at hn
  simpa [bne_iff_ne] using
    fun hax => hn.2.2 x.1 (List.mem_map_of_mem hx) a (by simp) hax.symm

theorem opcodeOf?_of_nodup (hn : t.allTokens.Nodup) (h : e ∈ t.entries) {u : String}
    (hu : u ∈ e.aliases) : t.opcodeOf? u = some e.op := by
  have hm : (u, e.op) ∈ listings t.entries :=
    List.mem_flatMap.2 ⟨e, h, List.mem_map.2 ⟨u, hu, rfl⟩⟩
  have ha : (listings t.entries).map Prod.fst = t.allTokens := by
    simp [allTokens, listings, List.map_flatMap, Function.comp_def]
  rw [opcodeOf?_eq_lookup]
  exact lookup_of_mem_nodup (ha ▸ hn) hm

theorem mem_allTokens_of_opcodeOf? {u : String} {op : Opcode} (h : t.opcodeOf? u = some op) :
    u ∈ t.allTokens := by
  rw [opcodeOf?_eq_find?] at h
  obtain ⟨e, he, -⟩ := Option.map_eq_some_iff.1 h
  exact mem_allTokens (List.mem_of_find?_eq_some he) (by simpa using List.find?_some he)

theorem opcodeOf?_of_mem {u : String} (h : u ∈ t.allTokens) : ∃ op, t.opcodeOf? u = some op := by
  obtain ⟨e, he, hu⟩ := List.mem_flatMap.1 h
  rw [← Option.isSome_iff_exists, opcodeOf?_eq_find?, Option.isSome_map, List.find?_isSome]
  exact ⟨e, he, by simpa using hu⟩

theorem isSome_opcodeOf?_iff {u : String} : (t.opcodeOf? u).isSome = true ↔ u ∈ t.allTokens := by
  rw [Option.isSome_iff_exists]
  exact ⟨fun ⟨_, h⟩ => mem_allTokens_of_opcodeOf? h, opcodeOf?_of_mem⟩

theorem opcodeOf?_of_owners {u : String}
    (ho : ∀ e ∈ t.entries, ∀ e' ∈ t.entries, ∀ u ∈ e.aliases, u ∈ e'.aliases → e.op = e'.op)
    (he : e ∈ t.entries) (hu : u ∈ e.aliases) : t.opcodeOf? u = some e.op := by
  obtain ⟨op, hop⟩ := opcodeOf?_of_mem (mem_allTokens he hu)
  rw [hop]
  rw [opcodeOf?_eq_find?] at hop
  obtain ⟨e', he', rfl⟩ := Option.map_eq_some_iff.1 hop
  have hu' : u ∈ e'.aliases := by simpa using List.find?_some he'
  rw [ho e' (List.mem_of_find?_eq_some he') e he u hu' hu]

theorem opcodeOf_eq_ok_iff {u : String} : t.opcodeOf u = .ok op ↔ t.opcodeOf? u = some op := by
  unfold opcodeOf
  cases t.opcodeOf? u <;> simp

theorem mem_opcodes_of_opcodeOf? {u : String} (h : t.opcodeOf? u = some op) :
    op ∈ t.opcodes := by
  rw [opcodeOf?_eq_find?] at h
  obtain ⟨e, he, rfl⟩ := Option.map_eq_some_iff.1 h
  exact mem_opcodes (List.mem_of_find?_eq_some he)

end TapeDialects.TokenTable
