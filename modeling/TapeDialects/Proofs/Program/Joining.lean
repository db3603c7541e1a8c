import TapeDialects.Proofs.Program.Writing
import TapeDialects.Proofs.Source.Extent

/-!
# Joined tokens

Tokens that are written one behind the other, with a text between them in which no token begins, are
found again where they were written. There are two reasons why none of them is taken for the
beginning of a longer token: no token goes on behind them, or the text between them begins with a
character that no token has.
-/

namespace TapeDialects

open Cursor (byteLength byteLength_append byteLength_toList)

/-- The lexemes of tokens that are written one behind the other from byte `n` on, with `gap` bytes
between them. -/
def spaced (gap : Nat) : (n : Nat) → List String → List Lexeme
  | _, [] => []
  | n, w :: ws => ⟨w, none, n⟩ :: spaced gap (n + w.utf8ByteSize + gap) ws

namespace TokenTable

/-- The token opens no region, and the separator tells it apart from those that it begins. -/
structure Joinable (t : TokenTable) (s : Surface) (separator w : String) : Prop where
  mem : w ∈ t.allTokens
  opens : (t.opcodeOf? w).bind s.regionOpenedBy = none
  apart : ∀ u ∈ t.allTokens, w.toList <+: u.toList → u = w ∨
    ¬ u.toList <+: w.toList ++ separator.toList ∧ ¬ w.toList ++ separator.toList <+: u.toList

variable {t : TokenTable} {s : Surface} {separator w : String} {ws : List String} {cur : Cursor}
  {lead back : List Char}

/-- A longer token would have the first character of the separator. -/
theorem apart_of_foreign {u : String} {c : Char} (hc : separator.toList.head? = some c)
    (hforeign : c ∉ u.toList) (hp : w.toList <+: u.toList) : u = w ∨
      ¬ u.toList <+: w.toList ++ separator.toList ∧
        ¬ w.toList ++ separator.toList <+: u.toList := by
  obtain ⟨cs, hsep⟩ := List.head?_eq_some_iff.1 hc
  obtain ⟨more, hmore⟩ := hp
  rw [hsep]
  cases more with
  | nil =>
    rw [List.append_nil] at hmore
    exact .inl (String.toList_inj.1 hmore.symm)
  | cons x xs =>
    refine .inr ⟨fun h => hforeign ?_, fun h => hforeign (h.subset (by simp))⟩
    rw [← hmore, List.prefix_append_right_inj, List.cons_prefix_cons] at h
    rw [← hmore, h.1]
    simp

/-- A scan that stands before a part of the separator and a token finds the token and goes on
behind it. -/
theorem scanAfresh_joined (h : t.Joinable s separator w)
    (hs : ∀ c ∈ separator.toList, ∀ u ∈ t.allTokens, u.toList.head? ≠ some c)
    (hl : ∀ c ∈ lead, c ∈ separator.toList) (hb : back = [] ∨ separator.toList <+: back)
    (hr : cur.rest = lead ++ (w.toList ++ back)) :
    t.scanAfresh s cur =
      (t.scanAfresh s ⟨cur.offset + byteLength lead + w.utf8ByteSize, back⟩).map
        (.cons ⟨w, none, cur.offset + byteLength lead⟩) := by
  have hf : FirstToken t.allTokens (lead ++ (w.toList ++ back)) lead w back :=
    .of_lead h.mem t.empty_not_mem_allTokens (fun c hc => hs c (hl c hc))
      fun _ hu hp => FirstToken.longest_of_apart h.apart hb hu hp
  rw [← hr] at hf
  rw [scanAfresh_plain hf (ne_empty_of_mem_allTokens h.mem) h.opens, byteLength_append,
    byteLength_toList, Nat.add_assoc]

/-- From each of the joined tokens a scan comes to the separator before the next. -/
theorem scanAfresh_joined_all (h : ∀ v ∈ w :: ws, t.Joinable s separator v)
    (hs : ∀ c ∈ separator.toList, ∀ u ∈ t.allTokens, u.toList.head? ≠ some c)
    (hl : ∀ c ∈ lead, c ∈ separator.toList)
    (hr : cur.rest = lead ++ (w.toList ++ joined separator ws)) :
    t.scanAfresh s cur =
      .ok ⟨spaced separator.utf8ByteSize (cur.offset + byteLength lead) (w :: ws), ""⟩ := by
  have hw := h w (List.mem_cons_self ..)
  induction ws generalizing w cur lead with
  | nil =>
    rw [scanAfresh_joined hw hs hl (.inl rfl) hr, scanAfresh_end rfl]
    rfl
  | cons v ws ih =>
    rw [joined_cons] at hr
    have hv : ∀ x ∈ v :: ws, t.Joinable s separator x := fun x hx => h x (List.mem_cons_of_mem w hx)
    rw [scanAfresh_joined hw hs hl (.inr ⟨_, rfl⟩) hr,
      ih hv (fun c hc => hc) rfl (hv v (List.mem_cons_self ..)), byteLength_toList]
    rfl

/-- Joined tokens that open no region are found again where they were written, if no token begins
within the separator and none is longer where one of them ends. -/
theorem lex_intercalate (hm : s.mode = .scan) (hw : ∀ w ∈ ws, w ∈ t.allTokens)
    (ho : ∀ w ∈ ws, (t.opcodeOf? w).bind s.regionOpenedBy = none)
    (hs : ∀ c ∈ separator.toList, ∀ u ∈ t.allTokens, u.toList.head? ≠ some c)
    (ha : (∀ w ∈ ws, ∀ u ∈ t.allTokens, w.toList <+: u.toList → u = w) ∨
      ∃ c, separator.toList.head? = some c ∧ ∀ u ∈ t.allTokens, c ∉ u.toList) :
    t.lex s (separator.intercalate ws) = .ok ⟨spaced separator.utf8ByteSize 0 ws, ""⟩ := by
  have h : ∀ w ∈ ws, t.Joinable s separator w := by
    refine fun w hmem => ⟨hw w hmem, ho w hmem, fun u hu hp => ?_⟩
    rcases ha with ha | ⟨c, hc, hforeign⟩
    · exact .inl (ha w hmem u hu hp)
    · exact apart_of_foreign hc (hforeign u hu) hp
  rw [lex, hm]
  refine (scan_eq_scanAfresh t s _).trans ?_
  cases ws with
  | nil => exact scanAfresh_end (by simp [Cursor.ofText])
  | cons w ws =>
    have hr : (Cursor.ofText (separator.intercalate (w :: ws))).rest =
        [] ++ (w.toList ++ joined separator ws) := toList_intercalate_cons separator w ws
    have hl : ∀ c ∈ ([] : List Char), c ∈ separator.toList := by simp
    exact scanAfresh_joined_all h hs hl hr

/-- A space tells apart a token and the longer one that it begins. -/
theorem lex_intercalate_fenced :
    let ws := ["+", "++", "+", "++"]
    (∀ w ∈ ws, w ∈ fenced.allTokens) ∧
      (∀ w ∈ ws, (fenced.opcodeOf? w).bind fences.regionOpenedBy = none) ∧
      (∀ c ∈ " ".toList, ∀ u ∈ fenced.allTokens, u.toList.head? ≠ some c) ∧
      (∀ u ∈ fenced.allTokens, ' ' ∉ u.toList) ∧
      fenced.lex fences "+ ++ + ++" =
        .ok ⟨[⟨"+", none, 0⟩, ⟨"++", none, 2⟩, ⟨"+", none, 5⟩, ⟨"++", none, 7⟩], ""⟩ := by
  intro ws
  have hw : ∀ w ∈ ws, w ∈ fenced.allTokens := by decide
  have ho : ∀ w ∈ ws, (fenced.opcodeOf? w).bind fences.regionOpenedBy = none := by
    simp only [opcodeOf?_eq_lookup]
    decide
  have hs : ∀ c ∈ " ".toList, ∀ u ∈ fenced.allTokens, u.toList.head? ≠ some c := by
    intro c hc
    obtain rfl : c = ' ' := List.mem_singleton.1 hc
    decide +kernel
  have ha : ∀ u ∈ fenced.allTokens, ' ' ∉ u.toList := by decide +kernel
  exact ⟨hw, ho, hs, ha, lex_intercalate rfl hw ho hs (.inr ⟨' ', by decide +kernel, ha⟩)⟩

end TokenTable

end TapeDialects
