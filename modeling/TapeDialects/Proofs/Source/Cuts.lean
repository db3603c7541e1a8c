import TapeDialects.Proofs.Source.Scans
import TapeDialects.Proofs.TokenTable.Lookup

/-!
# Cuts at separators

The pieces of a delimited text as a relation (`Piece.CutFrom`), which speaks of the places of
separators in the source: at each byte the first separator at or behind it cuts, the longest of
those at its place, and the next piece begins where the separator stops. Pieces and cuts by turns
tile the source, no separator stands within a piece, and the lexemes of a delimited text are the
pieces that are tokens (`TokenTable.lex_delimited`).

Splitting remembers where each separator occurs next, as a scan does for tokens; the invariant is
the same (`Remembered`).
-/

namespace TapeDialects

open Cursor (byteLength byteLength_append byteLength_toList)

theorem TailFrom.standsAt {source : String} {n : Nat} {tail : List Char}
    (h : TailFrom source n tail) : StandsAt source n (String.ofList tail) :=
  ⟨[], by rwa [String.toList_ofList, List.append_nil]⟩

theorem TailFrom.size_eq {source : String} {n : Nat} {tail : List Char}
    (h : TailFrom source n tail) : n + byteLength tail = source.utf8ByteSize := by
  obtain ⟨front, hs, rfl⟩ := h
  rw [← byteLength_toList, hs, byteLength_append]

namespace Piece

def stop (p : Piece) : Nat := p.offset + p.text.utf8ByteSize

/-- From byte `n` on, the first of the separators cuts the source each time. -/
inductive CutFrom (separators : List String) (source : String) :
    (n : Nat) → (pieces : List Piece) → (cuts : List Occurrence) → Prop where
  | last {n : Nat} {tail : List Char} (noneLeft : NoneFrom separators source n)
      (rest : TailFrom source n tail) :
      CutFrom separators source n [⟨n, String.ofList tail⟩] []
  | cut {n : Nat} {text : String} {o : Occurrence} {pieces : List Piece} {cuts : List Occurrence}
      (closed : ClosedBy separators source n text o)
      (more : CutFrom separators source o.stop pieces cuts) :
      CutFrom separators source n (⟨n, text⟩ :: pieces) (o :: cuts)

/-- Pieces and cuts by turns, a piece first. -/
def woven : List Piece → List Occurrence → List Piece
  | p :: ps, o :: os => p :: ⟨o.offset, o.token⟩ :: woven ps os
  | ps, _ => ps

/-- The parts stand in the source from byte `n` to byte `m`, each where the one before stops. -/
def Tile (source : String) : (n : Nat) → List Piece → (m : Nat) → Prop
  | n, [], m => n = m
  | n, p :: ps, m => p.offset = n ∧ StandsAt source n p.text ∧ Tile source p.stop ps m

variable {separators : List String} {source : String} {n : Nat} {pieces pieces' : List Piece}
  {cuts cuts' : List Occurrence} {cur : Cursor}

/-! ### Every source is cut in one way -/

theorem exists_cutFrom (hne : "" ∉ separators) (hin : cur.In source) :
    ∃ pieces cuts, CutFrom separators source cur.offset pieces cuts := by
  induction cur using Cursor.ahead_induction with
  | step cur ih =>
    cases ho : cur.earliest separators with
    | none => exact ⟨_, _, .last (hin.earliest_eq_none_iff.1 ho) hin⟩
    | some o =>
      obtain ⟨hin', hoff⟩ := hin.behind hne ho
      obtain ⟨pieces, cuts, more⟩ := ih _ (Cursor.ahead_behind hne ho) hin'
      rw [hoff] at more
      exact ⟨_, _, .cut (closedBy_of_earliest hin ho) more⟩

theorem CutFrom.unique (h : CutFrom separators source n pieces cuts)
    (h' : CutFrom separators source n pieces' cuts') : pieces' = pieces ∧ cuts' = cuts := by
  induction h generalizing pieces' cuts' with
  | last noneLeft rest =>
    cases h' with
    | last _ rest' => exact ⟨by rw [rest.unique rest'], rfl⟩
    | cut closed => exact absurd noneLeft closed.first.not_noneFrom
  | cut closed more ih =>
    cases h' with
    | last noneLeft => exact absurd noneLeft closed.first.not_noneFrom
    | cut closed' more' =>
      obtain rfl := closed.first.unique closed'.first
      obtain ⟨hp, hc⟩ := ih more'
      exact ⟨by rw [closed.text_unique closed', hp], by rw [hc]⟩

/-! ### What a cut source looks like -/

theorem CutFrom.stands (h : CutFrom separators source n pieces cuts) :
    ∀ p ∈ pieces, StandsAt source p.offset p.text := by
  induction h with
  | last noneLeft rest => simpa using rest.standsAt
  | cut closed more ih => exact List.forall_mem_cons.2 ⟨closed.stands, ih⟩

/-- A separator that began within a piece would have come before the cut that ends it. -/
theorem CutFrom.none_within (h : CutFrom separators source n pieces cuts) :
    ∀ p ∈ pieces, ∀ u ∈ separators, ∀ k, p.offset ≤ k → k < p.stop → ¬ StandsAt source k u := by
  induction h with
  | last noneLeft rest =>
    intro p hp u hu k hk _
    rw [List.mem_singleton.1 hp] at hk
    exact noneLeft u hu k hk
  | cut closed more ih =>
    refine List.forall_mem_cons.2 ⟨fun u hu k hk hlt => ?_, ih⟩
    have hmeets := closed.meets
    simp only [stop] at hlt
    exact closed.first.none_before u hu k hk (by omega)

theorem CutFrom.not_infix (hne : "" ∉ separators) (h : CutFrom separators source n pieces cuts) :
    ∀ p ∈ pieces, ∀ u ∈ separators, ¬ u.toList <:+: p.text.toList := by
  rintro p hp u hu ⟨front, back, htext⟩
  have hpos := utf8ByteSize_pos_of_mem hne hu
  have hsize : p.text.utf8ByteSize = byteLength front + u.utf8ByteSize + byteLength back := by
    simp only [← byteLength_toList, ← htext, byteLength_append]
  obtain ⟨tail, hcut⟩ := h.stands p hp
  have hu' : StandsAt source (p.offset + byteLength front) u := by
    rw [← htext, List.append_assoc, List.append_assoc] at hcut
    exact ⟨back ++ tail, hcut.behind⟩
  exact h.none_within p hp u hu _ (by omega) (by simp only [stop]; omega) hu'

theorem CutFrom.tile (h : CutFrom separators source n pieces cuts) :
    Tile source n (woven pieces cuts) source.utf8ByteSize := by
  induction h with
  | last noneLeft rest =>
    refine ⟨rfl, rest.standsAt, ?_⟩
    rw [← rest.size_eq]
    simp only [Tile, stop, ← byteLength_toList, String.toList_ofList]
  | cut closed more ih =>
    have hmeets := closed.meets
    exact ⟨rfl, closed.stands, hmeets.symm, hmeets ▸ closed.first.stands, ih⟩

/-- Each cut takes the next piece further on, by a byte at least. -/
theorem CutFrom.length_le (hne : "" ∉ separators) (h : CutFrom separators source n pieces cuts) :
    n + cuts.length ≤ source.utf8ByteSize := by
  induction h with
  | last noneLeft rest =>
    have := rest.size_eq
    simp only [List.length_nil]
    omega
  | cut closed more ih =>
    have hpos := utf8ByteSize_pos_of_mem hne closed.first.mem
    have hle := closed.first.le
    simp only [Occurrence.stop, List.length_cons] at ih ⊢
    omega

/-! ### Splitting -/

theorem reverse_addTo (found : List Piece) (p : Piece) :
    (addTo found p).reverse = found.reverse ++ [p].filter fun p => !p.text.isEmpty := by
  unfold addTo
  by_cases h : p.text.isEmpty <;> simp [h]

/-- Splitting from a cursor on finds the pieces that have characters, whatever it remembers. -/
theorem splitFrom_eq (hne : "" ∉ separators) (h : CutFrom separators source n pieces cuts)
    (hin : cur.In source) (hn : cur.offset = n) {cs : List Candidate}
    (hc : Remembered separators cur cs) (found : List Piece) :
    splitFrom cs found cur = found.reverse ++ pieces.filter fun p => !p.text.isEmpty := by
  induction h generalizing cur cs found with
  | last noneLeft rest =>
    subst hn
    have he := hc.earliest_eq
    rw [hin.earliest_eq_none_iff.2 noneLeft] at he
    rw [← TailFrom.unique hin rest, splitFrom]
    by_cases hr : cur.rest = []
    · simp [hr]
    · rw [dif_neg hr]
      simp only [he]
      exact reverse_addTo found _
  | @cut n text o pieces cuts closed more ih =>
    subst hn
    obtain ⟨ho, hin', hoff⟩ := hin.found_of_firstAt hne closed.first
    have he := hc.earliest_eq
    rw [ho] at he
    have ha := Cursor.ahead_behind hne ho
    have hr : cur.rest ≠ [] := fun hr => by
      have := ha.length_lt
      simp [hr] at this
    have htext := (closedBy_of_earliest hin ho).text_unique closed
    have hmore := ih hin' hoff (hc.refreshed.ahead ha) (addTo found ⟨cur.offset, text⟩)
    rw [reverse_addTo, List.append_assoc, ← List.filter_append] at hmore
    rw [splitFrom, dif_neg hr]
    simp only [he]
    rw [beforeSeparator, htext]
    exact hmore

theorem split_eq (hs : ∃ u ∈ separators, u ≠ "")
    (h : CutFrom (separators.filter (!·.isEmpty)) source 0 pieces cuts) :
    split separators source = pieces.filter fun p => !p.text.isEmpty := by
  have hne : "" ∉ separators.filter (!·.isEmpty) := by simp
  have hcut := splitFrom_eq hne h (Cursor.in_ofText source) rfl (Remembered.ofTokens _ _) []
  rw [List.reverse_nil, List.nil_append] at hcut
  unfold split
  split
  · next hn =>
    obtain ⟨u, hu, hu'⟩ := hs
    exact absurd (by simpa using hu') (by simpa using List.filter_eq_nil_iff.1 hn u hu)
  · exact hcut

end Piece

namespace TokenTable

open Piece

variable {t : TokenTable} {s : Surface} {source : String} {pieces : List Piece}
  {cuts : List Occurrence}

theorem lexPieces_eq (hp : Piece.split s.separators source =
    pieces.filter fun p => !p.text.isEmpty) :
    t.lexPieces s source =
      ⟨(pieces.filter fun p => p.text ≠ "" ∧ p.text ∈ t.allTokens).map
        fun p => ⟨p.text, none, p.offset⟩, ""⟩ := by
  rw [lexPieces, hp, ← List.filterMap_eq_map, List.filterMap_filter, List.filterMap_filter]
  congr 2
  funext p
  by_cases hm : p.text ∈ t.allTokens <;> by_cases he : p.text = "" <;>
    simp [isSome_opcodeOf?_iff, hm, he]

/-- A delimited text is cut from left to right at the first separator, the longest of those at its
place. There is one way to do so; pieces and cuts by turns make up the text, no separator
occurs within a piece, there are no more cuts than bytes, and the lexemes are the pieces that are
tokens. -/
theorem lex_delimited (t : TokenTable) (hm : s.mode = .delimited)
    (hs : ∃ u ∈ s.separators, u ≠ "") (source : String) :
    let separators := s.separators.filter (!·.isEmpty)
    ∃ pieces cuts, CutFrom separators source 0 pieces cuts ∧
      (∀ pieces' cuts', CutFrom separators source 0 pieces' cuts' →
        pieces' = pieces ∧ cuts' = cuts) ∧
      Tile source 0 (woven pieces cuts) source.utf8ByteSize ∧
      (∀ p ∈ pieces, ∀ u ∈ separators, ¬ u.toList <:+: p.text.toList) ∧
      cuts.length ≤ source.utf8ByteSize ∧
      t.lex s source =
        .ok ⟨(pieces.filter fun p => p.text ≠ "" ∧ p.text ∈ t.allTokens).map
          fun p => ⟨p.text, none, p.offset⟩, ""⟩ := by
  intro separators
  have hne : "" ∉ separators := by simp [separators]
  obtain ⟨pieces, cuts, h⟩ := exists_cutFrom hne (Cursor.in_ofText source)
  have hlen := h.length_le hne
  refine ⟨pieces, cuts, h, fun _ _ h' => h.unique h', h.tile, h.not_infix hne, ?_, ?_⟩
  · simpa [Cursor.ofText] using hlen
  · rw [lex, hm, ← lexPieces_eq (split_eq hs h)]

def worded : TokenTable := declare [⟨.inc, ["é"]⟩, ⟨.dec, ["ab"]⟩] (by decide)

/-- One of the separators is empty and one begins another. -/
def commas : Surface := { separators := ["", ",", ",,", "→"], mode := .delimited }

/-- Three commas are two cuts, and the piece between them has no characters. -/
theorem lex_delimited_worded :
    commas.mode = .delimited ∧ (∃ u ∈ commas.separators, u ≠ "") ∧
      CutFrom [",", ",,", "→"] "é,,,ab→zz" 0 [⟨0, "é"⟩, ⟨4, ""⟩, ⟨5, "ab"⟩, ⟨10, "zz"⟩]
        [⟨2, ",,"⟩, ⟨4, ","⟩, ⟨7, "→"⟩] ∧
      worded.lex commas "é,,,ab→zz" = .ok ⟨[⟨"é", none, 0⟩, ⟨"ab", none, 5⟩], ""⟩ := by
  have hs : ∃ u ∈ commas.separators, u ≠ "" := ⟨",", by decide, by decide⟩
  have last : CutFrom [",", ",,", "→"] "é,,,ab→zz" 10 [⟨10, "zz"⟩] [] :=
    .last (by decide +kernel) (show TailFrom "é,,,ab→zz" 10 ['z', 'z'] by decide +kernel)
  have third : CutFrom [",", ",,", "→"] "é,,,ab→zz" 5 [⟨5, "ab"⟩, ⟨10, "zz"⟩] [⟨7, "→"⟩] :=
    .cut (by decide +kernel) last
  have second : CutFrom [",", ",,", "→"] "é,,,ab→zz" 4 [⟨4, ""⟩, ⟨5, "ab"⟩, ⟨10, "zz"⟩]
      [⟨4, ","⟩, ⟨7, "→"⟩] := .cut (by decide +kernel) third
  have first : CutFrom [",", ",,", "→"] "é,,,ab→zz" 0
      [⟨0, "é"⟩, ⟨4, ""⟩, ⟨5, "ab"⟩, ⟨10, "zz"⟩] [⟨2, ",,"⟩, ⟨4, ","⟩, ⟨7, "→"⟩] :=
    .cut (by decide +kernel) second
  obtain ⟨pieces, cuts, -, unique, -, -, -, hlex⟩ :=
    lex_delimited (s := commas) worded rfl hs "é,,,ab→zz"
  obtain ⟨rfl, -⟩ := unique _ _ first
  exact ⟨rfl, hs, first, hlex.trans (by decide +kernel)⟩

end TokenTable

end TapeDialects
