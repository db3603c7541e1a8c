import TapeDialects.Source.Lexing

/-!
# First tokens

What a search for several tokens finds, said of the text alone: the place where one of them
occurs and before which none does, with the longest of those that occur there
(`FirstToken`). There is at most one such cut of a text, and `Cursor.earliest` finds it.
-/

namespace TapeDialects

open Cursor (byteLength byteLength_append)

/-- The text `cs` is cut at the first of the tokens in it, the longest of those at its place. -/
structure FirstToken (tokens : List String) (cs skipped : List Char) (token : String)
    (back : List Char) : Prop where
  text_eq : cs = skipped ++ (token.toList ++ back)
  mem : token ∈ tokens
  none_before : ∀ u ∈ tokens, ∀ k, k < skipped.length → ¬ u.toList <+: cs.drop k
  longest : ∀ u ∈ tokens, u.toList <+: token.toList ++ back →
    u.toList.length ≤ token.toList.length

namespace Cursor

theorem byteLength_pos {cs : List Char} (h : cs ≠ []) : 0 < byteLength cs := by
  cases cs with
  | nil => contradiction
  | cons c cs =>
    have := c.utf8Size_pos
    rw [byteLength]
    omega

theorem byteLength_take_lt {cs : List Char} {k : Nat} (h : k < cs.length) :
    byteLength (cs.take k) < byteLength cs := by
  have ha := byteLength_append (cs.take k) (cs.drop k)
  have hp : 0 < byteLength (cs.drop k) := byteLength_pos (by simpa using h)
  rw [List.take_append_drop] at ha
  omega

/-- Of two beginnings of one text, the one with more bytes has more characters. -/
theorem length_le_of_byteLength_le {p q cs : List Char} (hp : p <+: cs) (hq : q <+: cs)
    (h : byteLength p ≤ byteLength q) : p.length ≤ q.length := by
  rcases Nat.lt_or_ge q.length p.length with hl | hl
  · obtain ⟨r, hr⟩ := List.prefix_of_prefix_length_le hq hp (Nat.le_of_lt hl)
    have hb := byteLength_append q r
    rw [hr] at hb
    have hne : r ≠ [] := by
      rintro rfl
      rw [List.append_nil] at hr
      rw [hr] at hl
      exact Nat.lt_irrefl _ hl
    have := byteLength_pos hne
    omega
  · exact hl

end Cursor

open Cursor

/-! ### The first place of one token -/

theorem firstOffset?_eq_some {chars cs : List Char} {offset n : Nat}
    (h : firstOffset? chars offset cs = some n) :
    ∃ front back, cs = front ++ (chars ++ back) ∧ n = offset + byteLength front := by
  induction cs generalizing offset with
  | nil =>
    rw [firstOffset?] at h
    split at h
    · next hp =>
      obtain ⟨back, hb⟩ := List.isPrefixOf_iff_prefix.1 hp
      cases h
      exact ⟨[], back, hb.symm, rfl⟩
    · contradiction
  | cons c cs ih =>
    rw [firstOffset?] at h
    split at h
    · next hp =>
      obtain ⟨back, hb⟩ := List.isPrefixOf_iff_prefix.1 hp
      cases h
      exact ⟨[], back, hb.symm, rfl⟩
    · obtain ⟨front, back, hc, hn⟩ := ih h
      refine ⟨c :: front, back, by rw [hc, List.cons_append], ?_⟩
      rw [hn, byteLength]
      omega

theorem firstOffset?_le {chars cs : List Char} {k : Nat} (h : chars <+: cs.drop k) (offset : Nat) :
    ∃ n, firstOffset? chars offset cs = some n ∧ n ≤ offset + byteLength (cs.take k) := by
  induction cs generalizing k offset with
  | nil =>
    have hp : chars.isPrefixOf [] = true := List.isPrefixOf_iff_prefix.2 (by simpa using h)
    exact ⟨offset, by rw [firstOffset?, if_pos hp], by omega⟩
  | cons c cs ih =>
    rw [firstOffset?]
    split
    · exact ⟨offset, rfl, by omega⟩
    · next hp =>
      cases k with
      | zero => exact absurd (List.isPrefixOf_iff_prefix.2 h) hp
      | succ k =>
        obtain ⟨n, hn, hle⟩ := ih (k := k) (by simpa using h) (offset + c.utf8Size)
        refine ⟨n, hn, ?_⟩
        rw [List.take_succ_cons, byteLength]
        omega

theorem firstOffset?_eq_none_iff {chars cs : List Char} {offset : Nat} :
    firstOffset? chars offset cs = none ↔ ∀ k, ¬ chars <+: cs.drop k := by
  constructor
  · intro h k hk
    obtain ⟨n, hn, _⟩ := firstOffset?_le hk offset
    rw [h] at hn
    contradiction
  · intro h
    cases hf : firstOffset? chars offset cs with
    | none => rfl
    | some n =>
      obtain ⟨front, back, hc, _⟩ := firstOffset?_eq_some hf
      refine absurd ?_ (h front.length)
      rw [hc, List.drop_left]
      exact List.prefix_append chars back

/-! ### The first of several occurrences -/

namespace Occurrence

theorem foldl_improve_some (os : List Occurrence) (b : Occurrence) :
    ∃ o ∈ b :: os, os.foldl improve (some b) = some o ∧ ∀ o' ∈ b :: os, ¬ o'.Before o := by
  induction os generalizing b with
  | nil =>
    refine ⟨b, List.mem_singleton_self b, rfl, ?_⟩
    intro o' ho'
    rw [List.mem_singleton.1 ho']
    unfold Before
    omega
  | cons a os ih =>
    rw [List.foldl_cons, improve]
    split
    · next hab =>
      obtain ⟨o, hm, hf, hb⟩ := ih a
      refine ⟨o, List.mem_cons_of_mem b hm, hf, ?_⟩
      intro o' ho'
      rcases List.mem_cons.1 ho' with rfl | ho'
      · have hao := hb a (List.mem_cons_self ..)
        unfold Before at hab hao ⊢
        omega
      · exact hb o' ho'
    · next hab =>
      obtain ⟨o, hm, hf, hb⟩ := ih b
      refine ⟨o, ?_, hf, ?_⟩
      · rcases List.mem_cons.1 hm with rfl | hm
        · exact List.mem_cons_self ..
        · exact List.mem_cons_of_mem b (List.mem_cons_of_mem a hm)
      · intro o' ho'
        have hbo := hb b (List.mem_cons_self ..)
        rcases List.mem_cons.1 ho' with rfl | ho'
        · exact hbo
        · rcases List.mem_cons.1 ho' with rfl | ho'
          · unfold Before at hab hbo ⊢
            omega
          · exact hb o' (List.mem_cons_of_mem b ho')

theorem earliest_cons (a : Occurrence) (os : List Occurrence) :
    ∃ o ∈ a :: os, earliest (a :: os) = some o ∧ ∀ o' ∈ a :: os, ¬ o'.Before o :=
  foldl_improve_some os a

theorem mem_of_earliest {os : List Occurrence} {o : Occurrence} (h : earliest os = some o) :
    o ∈ os ∧ ∀ o' ∈ os, ¬ o'.Before o := by
  cases os with
  | nil => contradiction
  | cons a os =>
    obtain ⟨x, hm, hx, hb⟩ := earliest_cons a os
    rw [h] at hx
    cases hx
    exact ⟨hm, hb⟩

theorem earliest_eq_none_iff {os : List Occurrence} : earliest os = none ↔ os = [] := by
  cases os with
  | nil => exact ⟨fun _ => rfl, fun _ => rfl⟩
  | cons a os =>
    obtain ⟨o, _, ho, _⟩ := earliest_cons a os
    simp [ho]

end Occurrence

/-! ### The first of several tokens -/

theorem Candidate.occurrence?_search (cur : Cursor) (c : Candidate) :
    (c.search cur).occurrence? =
      (firstOffset? c.token.toList cur.offset cur.rest).map fun n => ⟨n, c.token⟩ := by
  unfold search
  split <;> simp_all [occurrence?]

namespace Cursor

variable {cur : Cursor} {tokens : List String}

def occurrences (cur : Cursor) (tokens : List String) : List Occurrence :=
  tokens.filterMap fun u => (firstOffset? u.toList cur.offset cur.rest).map fun n => ⟨n, u⟩

theorem earliest_eq (cur : Cursor) (tokens : List String) :
    cur.earliest tokens = Occurrence.earliest (cur.occurrences tokens) := by
  unfold earliest Candidate.earliest occurrences Candidate.ofTokens
  rw [List.map_map, List.filterMap_map]
  congr 2
  funext u
  exact Candidate.occurrence?_search cur { token := u }

theorem mem_occurrences_iff {o : Occurrence} :
    o ∈ cur.occurrences tokens ↔
      o.token ∈ tokens ∧ firstOffset? o.token.toList cur.offset cur.rest = some o.offset := by
  obtain ⟨n, u⟩ := o
  simp only [occurrences, List.mem_filterMap, Option.map_eq_some_iff, Occurrence.mk.injEq]
  constructor
  · rintro ⟨v, hv, m, hm, rfl, rfl⟩
    exact ⟨hv, hm⟩
  · rintro ⟨hu, hn⟩
    exact ⟨u, hu, n, hn, rfl, rfl⟩

theorem earliest_eq_none_iff :
    cur.earliest tokens = none ↔ ∀ u ∈ tokens, ∀ k, ¬ u.toList <+: cur.rest.drop k := by
  rw [earliest_eq, Occurrence.earliest_eq_none_iff, List.eq_nil_iff_forall_not_mem]
  constructor
  · intro h u hu k hk
    obtain ⟨n, hn, _⟩ := firstOffset?_le hk cur.offset
    exact h ⟨n, u⟩ (mem_occurrences_iff.2 ⟨hu, hn⟩)
  · intro h o ho
    obtain ⟨hu, hn⟩ := mem_occurrences_iff.1 ho
    have hnone : firstOffset? o.token.toList cur.offset cur.rest = none :=
      firstOffset?_eq_none_iff.2 (h o.token hu)
    rw [hn] at hnone
    contradiction

theorem firstToken_of_earliest {o : Occurrence} (h : cur.earliest tokens = some o) :
    ∃ skipped back, FirstToken tokens cur.rest skipped o.token back ∧
      o.offset = cur.offset + byteLength skipped := by
  rw [earliest_eq] at h
  obtain ⟨ho, hb⟩ := Occurrence.mem_of_earliest h
  obtain ⟨hu, hn⟩ := mem_occurrences_iff.1 ho
  obtain ⟨skipped, back, hc, hs⟩ := firstOffset?_eq_some hn
  refine ⟨skipped, back, ⟨hc, hu, ?_, ?_⟩, hs⟩
  · intro u hu k hk hp
    obtain ⟨n, hn, hle⟩ := firstOffset?_le hp cur.offset
    have ht : cur.rest.take k = skipped.take k := by
      rw [hc, List.take_append_of_le_length (Nat.le_of_lt hk)]
    have hlt := byteLength_take_lt hk
    refine hb ⟨n, u⟩ (mem_occurrences_iff.2 ⟨hu, hn⟩) (.inl ?_)
    show n < o.offset
    rw [ht] at hle
    omega
  · intro u hu hp
    have hd : u.toList <+: cur.rest.drop skipped.length := by rwa [hc, List.drop_left]
    obtain ⟨n, hn, hle⟩ := firstOffset?_le hd cur.offset
    have ht : cur.rest.take skipped.length = skipped := by rw [hc, List.take_left]
    have hnb := hb ⟨n, u⟩ (mem_occurrences_iff.2 ⟨hu, hn⟩)
    unfold Occurrence.Before at hnb
    dsimp only at hnb
    rw [ht] at hle
    refine length_le_of_byteLength_le hp (List.prefix_append _ back) ?_
    rw [byteLength_toList, byteLength_toList]
    omega

end Cursor

namespace FirstToken

variable {tokens : List String} {cs skipped skipped' back back' : List Char}
  {token token' : String}

theorem length_skipped_le (h : FirstToken tokens cs skipped token back)
    (h' : FirstToken tokens cs skipped' token' back') : skipped.length ≤ skipped'.length := by
  rcases Nat.lt_or_ge skipped'.length skipped.length with hl | hl
  · refine absurd ?_ (h.none_before token' h'.mem skipped'.length hl)
    rw [h'.text_eq, List.drop_left]
    exact List.prefix_append _ back'
  · exact hl

theorem unique (h : FirstToken tokens cs skipped token back)
    (h' : FirstToken tokens cs skipped' token' back') :
    skipped = skipped' ∧ token = token' ∧ back = back' := by
  have hl := Nat.le_antisymm (h.length_skipped_le h') (h'.length_skipped_le h)
  have hc := h.text_eq.symm.trans h'.text_eq
  obtain ⟨hs, ht⟩ := List.append_inj hc hl
  have hle := h.longest token' h'.mem (ht ▸ List.prefix_append _ back')
  have hge := h'.longest token h.mem (ht ▸ List.prefix_append _ back)
  obtain ⟨htok, hb⟩ := List.append_inj ht (Nat.le_antisymm hge hle)
  exact ⟨hs, String.toList_inj.1 htok, hb⟩

/-- A token is the first one behind a text in which no token begins, and the longest there if none
goes on further. -/
theorem of_lead {lead : List Char} (hm : token ∈ tokens) (hne : "" ∉ tokens)
    (hl : ∀ c ∈ lead, ∀ u ∈ tokens, u.toList.head? ≠ some c)
    (longest : ∀ u ∈ tokens, u.toList <+: token.toList ++ back →
      u.toList.length ≤ token.toList.length) :
    FirstToken tokens (lead ++ (token.toList ++ back)) lead token back where
  text_eq := rfl
  mem := hm
  none_before := by
    intro u hu k hk hp
    rw [List.drop_append_of_le_length (Nat.le_of_lt hk), List.drop_eq_getElem_cons hk] at hp
    cases hc : u.toList with
    | nil => exact hne (String.toList_eq_nil_iff.1 hc ▸ hu)
    | cons c cs =>
      rw [hc, List.cons_append, List.cons_prefix_cons] at hp
      refine hl c ?_ u hu (by rw [hc, List.head?_cons])
      rw [hp.1]
      exact List.getElem_mem hk
  longest := longest

/-- A token is the longest before a separator, or at the end, if the separator tells it apart from
those that it begins. -/
theorem longest_of_apart {separator : List Char} {u : String}
    (apart : ∀ u ∈ tokens, token.toList <+: u.toList → u = token ∨
      ¬ u.toList <+: token.toList ++ separator ∧ ¬ token.toList ++ separator <+: u.toList)
    (hb : back = [] ∨ separator <+: back) (hu : u ∈ tokens)
    (hp : u.toList <+: token.toList ++ back) : u.toList.length ≤ token.toList.length := by
  rcases Nat.lt_or_ge token.toList.length u.toList.length with hlt | hge
  · -- A longer token begins with the shorter one, so it would go on into the separator.
    have hc : token.toList <+: u.toList :=
      List.prefix_of_prefix_length_le (List.prefix_append _ back) hp (Nat.le_of_lt hlt)
    rcases apart u hu hc with rfl | ⟨hs, hs'⟩
    · exact Nat.le_of_eq rfl
    · exfalso
      rcases hb with rfl | ⟨tail, rfl⟩
      · rw [List.append_nil] at hp
        exact hs (hp.trans (List.prefix_append _ _))
      · rw [← List.append_assoc] at hp
        rcases List.prefix_or_prefix_of_prefix hp (List.prefix_append _ tail) with h | h
        · exact hs h
        · exact hs' h
  · exact hge

theorem exists_of_mem {u : String} (hu : u ∈ tokens) (text back : List Char) :
    ∃ skipped token back', FirstToken tokens (text ++ (u.toList ++ back)) skipped token back' := by
  let cur : Cursor := ⟨0, text ++ (u.toList ++ back)⟩
  cases ho : cur.earliest tokens with
  | none =>
    refine absurd ?_ (Cursor.earliest_eq_none_iff.1 ho u hu text.length)
    rw [show cur.rest = text ++ (u.toList ++ back) from rfl, List.drop_left]
    exact List.prefix_append _ back
  | some o =>
    obtain ⟨skipped, back', hf, -⟩ := Cursor.firstToken_of_earliest ho
    exact ⟨skipped, o.token, back', hf⟩

theorem earliest_eq {cur : Cursor} (h : FirstToken tokens cur.rest skipped token back) :
    cur.earliest tokens = some ⟨cur.offset + byteLength skipped, token⟩ := by
  cases he : cur.earliest tokens with
  | none =>
    refine absurd ?_ (Cursor.earliest_eq_none_iff.1 he token h.mem skipped.length)
    rw [h.text_eq, List.drop_left]
    exact List.prefix_append _ back
  | some o =>
    obtain ⟨skipped', back', h', ho⟩ := Cursor.firstToken_of_earliest he
    obtain ⟨hs, ht, _⟩ := h.unique h'
    rw [hs, ht, ← ho]

theorem behind_eq {cur : Cursor} (h : FirstToken tokens cur.rest skipped token back)
    (hne : token.toList ≠ []) :
    cur.behind ⟨cur.offset + byteLength skipped, token⟩ =
      ⟨cur.offset + byteLength (skipped ++ token.toList), back⟩ := by
  have hb := byteLength_append skipped token.toList
  have hn : cur.offset + byteLength skipped + token.utf8ByteSize - cur.offset =
      byteLength (skipped ++ token.toList) := by
    rw [hb, byteLength_toList]
    omega
  have hp := passed_append (skipped ++ token.toList) back (by simp [hne])
  rw [Cursor.behind, Cursor.pass, Occurrence.stop]
  dsimp only
  rw [hn, h.text_eq, ← List.append_assoc, hp]

theorem textWithin_eq {cur : Cursor} (h : FirstToken tokens cur.rest skipped token back) :
    cur.textWithin (cur.offset + byteLength skipped - cur.offset) = String.ofList skipped := by
  rw [Cursor.textWithin, Nat.add_sub_cancel_left, h.text_eq, within_append]

end FirstToken

end TapeDialects
