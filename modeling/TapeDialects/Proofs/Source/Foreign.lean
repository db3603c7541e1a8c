import TapeDialects.Proofs.Source.Extent

/-!
# Foreign characters

A character that no token has may be put into a source anywhere outside of its lexemes: the lexemes
in front of it stay, and those behind it move on by its bytes. No token stands across the character
(`Insertion.standsAt_apply_cases`), so the insertion parts only tokens that had lost to a lexeme,
and makes none; what cut the source at the first and longest tokens still does.
-/

namespace TapeDialects

open Cursor (byteLength byteLength_append byteLength_toList)

/-- A character, and the number of characters of a text behind which it is put. -/
structure Insertion where
  place : Nat
  char : Char
  deriving DecidableEq, Repr

namespace Insertion

def apply (i : Insertion) (source : String) : String :=
  String.ofList (source.toList.take i.place ++ i.char :: source.toList.drop i.place)

/-- The number of bytes in front of the insertion. -/
def offset (i : Insertion) (source : String) : Nat := byteLength (source.toList.take i.place)

/-- A lexeme of the source, where it is after the insertion. -/
def move (i : Insertion) (source : String) (l : Lexeme) : Lexeme :=
  if i.offset source ≤ l.offset then { l with offset := l.offset + i.char.utf8Size } else l

/-- The text after several insertions, each into the text that the ones before it left. -/
def applyAll : List Insertion → String → String
  | [], source => source
  | i :: is, source => applyAll is (i.apply source)

def moveAll : List Insertion → String → Lexeme → Lexeme
  | [], _, l => l
  | i :: is, source, l => moveAll is (i.apply source) (i.move source l)

variable {i : Insertion} {source u : String} {n k : Nat} {l l' : Lexeme}

/-! ### Places after an insertion -/

theorem toList_apply (i : Insertion) (source : String) :
    (i.apply source).toList =
      source.toList.take i.place ++ i.char :: source.toList.drop i.place := by
  rw [apply, String.toList_ofList]

theorem tailFrom_offset (i : Insertion) (source : String) :
    TailFrom source (i.offset source) (source.toList.drop i.place) :=
  ⟨_, (List.take_append_drop i.place source.toList).symm, rfl⟩

theorem tailFrom_apply (i : Insertion) (source : String) :
    TailFrom (i.apply source) (i.offset source) (i.char :: source.toList.drop i.place) :=
  ⟨_, toList_apply i source, rfl⟩

theorem standsAt_apply_before (hn : n + u.utf8ByteSize ≤ i.offset source) :
    StandsAt (i.apply source) n u ↔ StandsAt source n u := by
  have hs := (List.take_append_drop i.place source.toList).symm
  have hs' := toList_apply i source
  exact ⟨StandsAt.of_front hs' hs hn, StandsAt.of_front hs hs' hn⟩

theorem standsAt_apply_behind (hn : i.offset source ≤ n) :
    StandsAt (i.apply source) (n + i.char.utf8Size) u ↔ StandsAt source n u := by
  have htail := (tailFrom_apply i source).behind_cons
  rw [(tailFrom_offset i source).standsAt_iff hn, htail.standsAt_iff (by omega)]
  refine exists₂_congr fun skipped back => and_congr_right fun _ => ?_
  omega

/-- A text without the character stands in front of it or behind it. -/
theorem standsAt_apply_cases (hx : i.char ∉ u.toList)
    (h : StandsAt (i.apply source) n u) :
    n + u.utf8ByteSize ≤ i.offset source ∧ StandsAt source n u ∨
      ∃ m, i.offset source ≤ m ∧ n = m + i.char.utf8Size ∧ StandsAt source m u := by
  have hcut := tailFrom_apply i source
  rcases Nat.lt_or_ge (i.offset source) (n + u.utf8ByteSize) with hlt | hge
  · rcases Nat.lt_or_ge (i.offset source) n with hlt' | hge'
    · -- It begins behind the character: nothing begins within the bytes of one.
      obtain ⟨skipped, back, hskip, hn⟩ := (hcut.standsAt_iff (Nat.le_of_lt hlt')).1 h
      cases skipped with
      | nil =>
        simp only [byteLength] at hn
        omega
      | cons c skipped =>
        injection hskip with hc hskip
        refine .inr ⟨i.offset source + byteLength skipped, Nat.le_add_right .., ?_, ?_⟩
        · simp only [byteLength, ← hc] at hn
          omega
        · exact ((tailFrom_offset i source).standsAt_iff (Nat.le_add_right ..)).2
            ⟨skipped, back, hskip, rfl⟩
    · exact absurd (h.mem_of_cut hcut hge' hlt) hx
  · exact .inl ⟨hge, (standsAt_apply_before hge).1 h⟩

/-! ### Lexemes after an insertion -/

theorem move_of_le (h : i.offset source ≤ l.offset) :
    i.move source l = { l with offset := l.offset + i.char.utf8Size } := if_pos h

theorem move_of_lt (h : l.offset < i.offset source) : i.move source l = l :=
  if_neg (Nat.not_le.2 h)

theorem offset_move (i : Insertion) (source : String) (l : Lexeme) :
    (i.move source l).offset =
      if i.offset source ≤ l.offset then l.offset + i.char.utf8Size else l.offset := by
  unfold move
  split <;> rfl

@[simp] theorem move_text (i : Insertion) (source : String) (l : Lexeme) :
    (i.move source l).text = l.text := by
  unfold move
  split <;> rfl

@[simp] theorem move_literal (i : Insertion) (source : String) (l : Lexeme) :
    (i.move source l).literal = l.literal := by
  unfold move
  split <;> rfl

theorem moveAll_text (is : List Insertion) (source : String) (l : Lexeme) :
    (moveAll is source l).text = l.text := by
  induction is generalizing source l with
  | nil => rfl
  | cons i is ih => rw [moveAll, ih, move_text]

/-- The insertion is not strictly inside of the lexeme. -/
def Outside (i : Insertion) (source : String) (l : Lexeme) : Prop :=
  i.offset source ≤ l.offset ∨ l.stop ≤ i.offset source

instance (i : Insertion) (source : String) (l : Lexeme) : Decidable (i.Outside source l) :=
  inferInstanceAs (Decidable (_ ∨ _))

theorem standsAt_move (ho : i.Outside source l) (h : StandsAt source l.offset l.text) :
    StandsAt (i.apply source) (i.move source l).offset l.text := by
  rcases Nat.lt_or_ge l.offset (i.offset source) with hlt | hge
  · rw [move_of_lt hlt]
    exact (standsAt_apply_before (ho.resolve_left (Nat.not_le.2 hlt))).2 h
  · rw [move_of_le hge]
    exact (standsAt_apply_behind hge).2 h

/-- What stands where a lexeme has moved stood where it was. -/
theorem standsAt_of_move (hx : i.char ∉ u.toList)
    (h : StandsAt (i.apply source) (i.move source l).offset u) : StandsAt source l.offset u := by
  rcases Nat.lt_or_ge l.offset (i.offset source) with hlt | hge
  · rw [move_of_lt hlt] at h
    rcases standsAt_apply_cases hx h with ⟨-, hs⟩ | ⟨m, hm, hn, -⟩
    · exact hs
    · omega
  · rw [move_of_le hge] at h
    exact (standsAt_apply_behind hge).1 h

theorem stop_move (i : Insertion) (source : String) (l : Lexeme) :
    (i.move source l).stop = (i.move source l).offset + l.text.utf8ByteSize := by
  rw [Lexeme.stop, move_text]

theorem stop_move_le (h : l.stop ≤ l'.offset) :
    (i.move source l).stop ≤ (i.move source l').offset := by
  unfold Lexeme.stop at h
  rw [stop_move, offset_move, offset_move]
  split <;> split <;> omega

/-- What begins within a lexeme still does, wherever the insertion puts both. -/
theorem within_move_before (hk : k < i.offset source) (h : l.offset ≤ k ∧ k < l.stop) :
    (i.move source l).offset ≤ k ∧ k < (i.move source l).stop := by
  rw [move_of_lt (Nat.lt_of_le_of_lt h.1 hk)]
  exact h

theorem within_move_behind (ho : i.Outside source l) (hk : i.offset source ≤ k)
    (h : l.offset ≤ k ∧ k < l.stop) :
    (i.move source l).offset ≤ k + i.char.utf8Size ∧
      k + i.char.utf8Size < (i.move source l).stop := by
  have hle : i.offset source ≤ l.offset := by
    rcases ho with hle | hle <;> omega
  rw [stop_move, move_of_le hle]
  unfold Lexeme.stop at h
  dsimp only
  omega

end Insertion

namespace TokenTable

variable {t : TokenTable} {s : Surface} {source : String} {i : Insertion} {r : Lexed}

/-- The insertion leaves the first and longest tokens of a source the first and longest ones. -/
theorem LeftmostLongest.apply (h : t.LeftmostLongest source 0 r)
    (foreign : ∀ u ∈ t.allTokens, i.char ∉ u.toList)
    (outside : ∀ l ∈ r.lexemes, i.Outside source l) :
    ∃ trailing,
      t.LeftmostLongest (i.apply source) 0 ⟨r.lexemes.map (i.move source), trailing⟩ := by
  have hstands : ∀ l ∈ r.lexemes, StandsAt (i.apply source) (i.move source l).offset l.text :=
    fun l hl => Insertion.standsAt_move (outside l hl) (h.stands l hl)
  have hcut : ∃ tail,
      TailFrom (i.apply source) (lastStop 0 (r.lexemes.map (i.move source))) tail := by
    rcases lastStop_eq_or 0 (r.lexemes.map (i.move source)) with h0 | ⟨l', hl', hstop⟩
    · exact ⟨_, h0 ▸ TailFrom.zero _⟩
    · obtain ⟨l, hl, rfl⟩ := List.mem_map.1 hl'
      rw [hstop, Insertion.stop_move]
      exact (hstands l hl).exists_tail
  obtain ⟨tail, hcut⟩ := hcut
  refine ⟨String.ofList tail,
    { from_le := fun _ _ => Nat.zero_le _
      token_mem := by simpa using h.token_mem
      plain := by simpa using h.plain
      stands := by simpa using hstands
      disjoint := h.disjoint.map _ fun _ _ => Insertion.stop_move_le
      longest := ?longest
      covered := ?covered
      trailing := by rwa [String.toList_ofList] }⟩
  case longest =>
    simp only [List.forall_mem_map, Insertion.move_text]
    intro l hl u hu hs
    exact h.longest l hl u hu (Insertion.standsAt_of_move (foreign u hu) hs)
  case covered =>
    intro u hu k _ hs
    have hpos := utf8ByteSize_pos_of_mem t.empty_not_mem_allTokens hu
    rcases Insertion.standsAt_apply_cases (foreign u hu) hs with ⟨hle, hk⟩ | ⟨m, hm, rfl, hk⟩
    · obtain ⟨l, hl, hwithin⟩ := h.covered u hu k (Nat.zero_le k) hk
      exact ⟨_, List.mem_map_of_mem hl, Insertion.within_move_before (by omega) hwithin⟩
    · obtain ⟨l, hl, hwithin⟩ := h.covered u hu m (Nat.zero_le m) hk
      exact ⟨_, List.mem_map_of_mem hl, Insertion.within_move_behind (outside l hl) hm hwithin⟩

/-- No token has the character, and it is put outside of the lexemes of the source. -/
structure Unseen (t : TokenTable) (s : Surface) (source : String) (i : Insertion) : Prop where
  foreign : ∀ u ∈ t.allTokens, i.char ∉ u.toList
  outside : ∀ r, t.lex s source = .ok r → ∀ l ∈ r.lexemes, i.Outside source l

def AllUnseen (t : TokenTable) (s : Surface) : List Insertion → String → Prop
  | [], _ => True
  | i :: is, source => t.Unseen s source i ∧ AllUnseen t s is (i.apply source)

theorem Unseen.of_lex (foreign : ∀ u ∈ t.allTokens, i.char ∉ u.toList)
    (h : t.lex s source = .ok r) (outside : ∀ l ∈ r.lexemes, i.Outside source l) :
    t.Unseen s source i := by
  refine ⟨foreign, fun r' h' => ?_⟩
  obtain rfl : r = r' := Except.ok.inj (h.symm.trans h')
  exact outside

theorem lex_apply (hm : s.mode = .scan) (hr : s.regions = []) (hi : t.Unseen s source i)
    (h : t.lex s source = .ok r) :
    ∃ trailing, t.lex s (i.apply source) = .ok ⟨r.lexemes.map (i.move source), trailing⟩ := by
  have hcut := ((lex_eq_ok_iff hm hr).1 h).apply hi.foreign (hi.outside r h)
  exact hcut.imp fun _ => (lex_eq_ok_iff hm hr).2

theorem exists_lex_applyAll (hm : s.mode = .scan) (hr : s.regions = []) {is : List Insertion}
    (hi : t.AllUnseen s is source) (h : t.lex s source = .ok r) :
    ∃ trailing, t.lex s (Insertion.applyAll is source) =
      .ok ⟨r.lexemes.map (Insertion.moveAll is source), trailing⟩ := by
  induction is generalizing source r with
  | nil =>
    have hmap : r.lexemes.map (Insertion.moveAll [] source) = r.lexemes := List.map_id r.lexemes
    exact ⟨r.trailing, by rw [hmap]; exact h⟩
  | cons i is ih =>
    obtain ⟨trailing, h'⟩ := lex_apply hm hr hi.1 h
    have hmore := ih hi.2 h'
    rwa [List.map_map] at hmore

/-- Without regions, insertions outside of the lexemes of characters that no token has leave the
texts of the lexemes as they are, and each moves those at or behind it by its bytes. -/
theorem lex_applyAll (hm : s.mode = .scan) (hr : s.regions = []) {is : List Insertion}
    (hi : t.AllUnseen s is source) :
    ∃ r r', t.lex s source = .ok r ∧ t.lex s (Insertion.applyAll is source) = .ok r' ∧
      r'.lexemes = r.lexemes.map (Insertion.moveAll is source) ∧
      r'.lexemes.map (·.text) = r.lexemes.map (·.text) := by
  obtain ⟨r, h⟩ := exists_lex_eq_ok (t := t) hm hr source
  obtain ⟨trailing, h'⟩ := exists_lex_applyAll hm hr hi h
  refine ⟨r, _, h, h', rfl, ?_⟩
  rw [List.map_map]
  exact List.map_congr_left fun l _ => Insertion.moveAll_text is source l

/-- Between two lexemes, of which the first ends with the token that the second one is, and then in
front of all. -/
theorem lex_applyAll_fenced :
    fenced.AllUnseen {} [⟨2, 'é'⟩, ⟨0, ' '⟩] "+++<" ∧
      Insertion.applyAll [⟨2, 'é'⟩, ⟨0, ' '⟩] "+++<" = " ++é+<" ∧
      ∃ r r', fenced.lex {} "+++<" = .ok r ∧ fenced.lex {} " ++é+<" = .ok r' ∧
        r'.lexemes = r.lexemes.map (Insertion.moveAll [⟨2, 'é'⟩, ⟨0, ' '⟩] "+++<") ∧
        r'.lexemes.map (·.text) = r.lexemes.map (·.text) := by
  have happly : (Insertion.mk 2 'é').apply "+++<" = "++é+<" := by decide +kernel
  have hlex : fenced.lex {} "++é+<" = .ok ⟨[⟨"++", none, 0⟩, ⟨"+", none, 4⟩, ⟨"<", none, 5⟩], ""⟩ :=
    (lex_eq_ok_iff rfl rfl).2 (by decide +kernel)
  have hunseen : fenced.AllUnseen {} [⟨2, 'é'⟩, ⟨0, ' '⟩] "+++<" := by
    refine ⟨.of_lex (by decide) lex_plain (by decide +kernel), ?_, trivial⟩
    rw [happly]
    exact .of_lex (by decide) hlex (by decide +kernel)
  exact ⟨hunseen, by decide +kernel, lex_applyAll rfl rfl hunseen⟩

end TokenTable

end TapeDialects
