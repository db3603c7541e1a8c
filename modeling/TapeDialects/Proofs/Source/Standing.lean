import TapeDialects.Proofs.Source.Afresh

/-!
# Texts at their places

Where texts stand in a source, counted in bytes from its beginning. Of several tokens, the one
that stands first at or behind a place is fixed by the places alone (`FirstAt`), and a cursor in the
source finds it (`Cursor.In.earliest_eq_some_iff`).
-/

namespace TapeDialects

open Cursor (byteLength byteLength_append byteLength_pos byteLength_toList)

/-- What follows the first `n` bytes of the source is `tail`. -/
def TailFrom (source : String) (n : Nat) (tail : List Char) : Prop :=
  ∃ front, source.toList = front ++ tail ∧ byteLength front = n

/-- The text `u` stands in the source from byte `n` on. -/
def StandsAt (source : String) (n : Nat) (u : String) : Prop :=
  ∃ back, TailFrom source n (u.toList ++ back)

/-- None of the tokens stands in the source at or behind byte `n`. -/
def NoneFrom (tokens : List String) (source : String) (n : Nat) : Prop :=
  ∀ u ∈ tokens, ∀ k, n ≤ k → ¬ StandsAt source k u

/-- Of the tokens that stand in the source at or behind byte `n`, `o` is the first, and the longest
of those at its place. -/
structure FirstAt (tokens : List String) (source : String) (n : Nat) (o : Occurrence) : Prop where
  mem : o.token ∈ tokens
  le : n ≤ o.offset
  stands : StandsAt source o.offset o.token
  none_before : ∀ u ∈ tokens, ∀ k, n ≤ k → k < o.offset → ¬ StandsAt source k u
  longest : ∀ u ∈ tokens, StandsAt source o.offset u → u.utf8ByteSize ≤ o.token.utf8ByteSize

/-- The cursor stands in the source, between two of its characters. -/
def Cursor.In (cur : Cursor) (source : String) : Prop := TailFrom source cur.offset cur.rest

theorem utf8ByteSize_pos_of_mem {tokens : List String} {u : String} (hne : "" ∉ tokens)
    (hu : u ∈ tokens) : 0 < u.utf8ByteSize := by
  rw [← byteLength_toList]
  exact byteLength_pos fun h => hne (String.toList_eq_nil_iff.1 h ▸ hu)

/-! ### Cuts of a source -/

namespace TailFrom

variable {source : String} {n m : Nat} {tail tail' mid : List Char}

theorem zero (source : String) : TailFrom source 0 source.toList := ⟨[], rfl, rfl⟩

theorem behind (h : TailFrom source n (mid ++ tail)) :
    TailFrom source (n + byteLength mid) tail := by
  obtain ⟨front, hs, rfl⟩ := h
  exact ⟨front ++ mid, by rw [hs, List.append_assoc], byteLength_append front mid⟩

theorem behind_cons {c : Char} (h : TailFrom source n (c :: tail)) :
    TailFrom source (n + c.utf8Size) tail := by
  have hc : TailFrom source n ([c] ++ tail) := h
  exact hc.behind

/-- Of two cuts of a source, the first one has the text up to the second one in front. -/
theorem eq_append_of_le (h : TailFrom source n tail) (h' : TailFrom source m tail') (hn : n ≤ m) :
    ∃ mid, tail = mid ++ tail' ∧ m = n + byteLength mid := by
  obtain ⟨front, hs, rfl⟩ := h
  obtain ⟨front', hs', rfl⟩ := h'
  have hp : front <+: source.toList := ⟨tail, hs.symm⟩
  have hp' : front' <+: source.toList := ⟨tail', hs'.symm⟩
  obtain ⟨mid, rfl⟩ :=
    List.prefix_of_prefix_length_le hp hp' (Cursor.length_le_of_byteLength_le hp hp' hn)
  refine ⟨mid, ?_, byteLength_append front mid⟩
  rw [hs, List.append_assoc] at hs'
  exact List.append_cancel_left hs'

theorem unique (h : TailFrom source n tail) (h' : TailFrom source n tail') : tail = tail' := by
  obtain ⟨mid, ht, hn⟩ := h.eq_append_of_le h' (Nat.le_refl n)
  cases mid with
  | nil => exact ht
  | cons c cs =>
    have := byteLength_pos (List.cons_ne_nil c cs)
    omega

end TailFrom

namespace StandsAt

variable {source u v : String} {n : Nat}

/-- Texts at one place of the same number of bytes are the same. -/
theorem unique (h : StandsAt source n u) (h' : StandsAt source n v)
    (hb : u.utf8ByteSize = v.utf8ByteSize) : u = v := by
  obtain ⟨back, hu⟩ := h
  obtain ⟨back', hv⟩ := h'
  have ht := hu.behind
  rw [byteLength_toList, hb, ← byteLength_toList] at ht
  have hback : back = back' := ht.unique hv.behind
  subst hback
  exact String.toList_inj.1 (List.append_cancel_right (hu.unique hv))

theorem exists_tail (h : StandsAt source n u) :
    ∃ tail, TailFrom source (n + u.utf8ByteSize) tail := by
  obtain ⟨back, hb⟩ := h
  have := hb.behind
  rw [byteLength_toList] at this
  exact ⟨back, this⟩

/-- A text stands in every source with the same front, if the front reaches behind it. -/
theorem of_front {source' : String} {front tail tail' : List Char}
    (hs : source.toList = front ++ tail) (hs' : source'.toList = front ++ tail')
    (hn : n + u.utf8ByteSize ≤ byteLength front) (h : StandsAt source n u) :
    StandsAt source' n u := by
  obtain ⟨back, before, hb, rfl⟩ := h
  have hback : TailFrom source (byteLength before + u.utf8ByteSize) back := by
    rw [← byteLength_toList]
    exact TailFrom.behind ⟨before, hb, rfl⟩
  obtain ⟨mid, rfl, -⟩ := hback.eq_append_of_le ⟨front, hs, rfl⟩ hn
  have heq : front ++ tail = before ++ (u.toList ++ mid) ++ tail := by
    rw [← hs, hb]
    simp only [List.append_assoc]
  have hfront : front = before ++ (u.toList ++ mid) := List.append_cancel_right heq
  refine ⟨mid ++ tail', before, ?_, rfl⟩
  rw [hs', hfront]
  simp only [List.append_assoc]

/-- What begins within a text that stands in a source begins with a character of it. -/
theorem mem_of_cut {k : Nat} {c : Char} {tail : List Char} (h : StandsAt source n u)
    (hc : TailFrom source k (c :: tail)) (hn : n ≤ k) (hk : k < n + u.utf8ByteSize) :
    c ∈ u.toList := by
  obtain ⟨back, hb⟩ := h
  obtain ⟨mid, hmid, hlen⟩ := hb.eq_append_of_le hc hn
  rw [← byteLength_toList] at hk
  rcases List.append_eq_append_iff.1 hmid with ⟨d, rfl, -⟩ | ⟨d, hu, hd⟩
  · rw [byteLength_append] at hlen
    omega
  · rw [hu] at hk ⊢
    cases d with
    | nil =>
      rw [List.append_nil] at hk
      omega
    | cons c' d =>
      injection hd with hc
      exact List.mem_append_right mid (hc ▸ List.mem_cons_self ..)

end StandsAt

/-- What stands in a source at or behind a cut stands in what follows it. -/
theorem TailFrom.standsAt_iff {source u : String} {n m : Nat} {tail : List Char}
    (h : TailFrom source n tail) (hn : n ≤ m) :
    StandsAt source m u ↔
      ∃ skipped back, tail = skipped ++ (u.toList ++ back) ∧ m = n + byteLength skipped := by
  constructor
  · rintro ⟨back, hb⟩
    obtain ⟨skipped, ht, hm⟩ := h.eq_append_of_le hb hn
    exact ⟨skipped, back, ht, hm⟩
  · rintro ⟨skipped, back, rfl, rfl⟩
    exact ⟨back, h.behind⟩

theorem TailFrom.exists_standsAt {source u : String} {n : Nat} {tail : List Char}
    (h : TailFrom source n tail) (hu : u.toList <:+: tail) : ∃ k, n ≤ k ∧ StandsAt source k u := by
  obtain ⟨front, back, rfl⟩ := hu
  rw [List.append_assoc] at h
  exact ⟨n + byteLength front, Nat.le_add_right .., back, h.behind⟩

theorem StandsAt.le_size {source u : String} {n : Nat} (h : StandsAt source n u) :
    n ≤ source.utf8ByteSize := by
  obtain ⟨back, front, hs, rfl⟩ := h
  rw [← byteLength_toList, hs, byteLength_append]
  exact Nat.le_add_right ..

/-! ### Deciding by trying every cut -/

theorem tailFrom_iff {source : String} {n : Nat} {tail : List Char} :
    TailFrom source n tail ↔ ∃ i ∈ List.range (source.toList.length + 1),
      byteLength (source.toList.take i) = n ∧ source.toList.drop i = tail := by
  constructor
  · rintro ⟨front, hs, hn⟩
    refine ⟨front.length, ?_, by rw [hs, List.take_left, hn], by rw [hs, List.drop_left]⟩
    rw [List.mem_range, hs, List.length_append]
    omega
  · rintro ⟨i, -, hn, ht⟩
    exact ⟨source.toList.take i, by rw [← ht, List.take_append_drop], hn⟩

theorem standsAt_iff {source u : String} {n : Nat} :
    StandsAt source n u ↔ ∃ i ∈ List.range (source.toList.length + 1),
      byteLength (source.toList.take i) = n ∧ u.toList <+: source.toList.drop i := by
  simp only [StandsAt, tailFrom_iff]
  constructor
  · rintro ⟨back, i, hi, hn, ht⟩
    exact ⟨i, hi, hn, back, ht.symm⟩
  · rintro ⟨i, hi, hn, back, ht⟩
    exact ⟨back, i, hi, hn, ht.symm⟩

theorem noneFrom_iff {tokens : List String} {source : String} {n : Nat} :
    NoneFrom tokens source n ↔
      ∀ u ∈ tokens, ∀ k < source.utf8ByteSize + 1, n ≤ k → ¬ StandsAt source k u :=
  ⟨fun h u hu k _ hk => h u hu k hk,
    fun h u hu k hk hs => h u hu k (Nat.lt_succ_of_le hs.le_size) hk hs⟩

instance (source : String) (n : Nat) (tail : List Char) : Decidable (TailFrom source n tail) :=
  decidable_of_iff _ tailFrom_iff.symm

instance (source : String) (n : Nat) (u : String) : Decidable (StandsAt source n u) :=
  decidable_of_iff _ standsAt_iff.symm

instance (tokens : List String) (source : String) (n : Nat) :
    Decidable (NoneFrom tokens source n) :=
  decidable_of_iff _ noneFrom_iff.symm

/-! ### The first of several tokens -/

namespace FirstAt

variable {tokens : List String} {source : String} {n : Nat} {o o' : Occurrence}

theorem iff : FirstAt tokens source n o ↔
    o.token ∈ tokens ∧ n ≤ o.offset ∧ StandsAt source o.offset o.token ∧
      (∀ u ∈ tokens, ∀ k < o.offset, n ≤ k → ¬ StandsAt source k u) ∧
      ∀ u ∈ tokens, StandsAt source o.offset u → u.utf8ByteSize ≤ o.token.utf8ByteSize :=
  ⟨fun h => ⟨h.mem, h.le, h.stands, fun u hu k hlt hk => h.none_before u hu k hk hlt, h.longest⟩,
    fun ⟨hm, hn, hs, hb, hl⟩ => ⟨hm, hn, hs, fun u hu k hk hlt => hb u hu k hlt hk, hl⟩⟩

instance (tokens : List String) (source : String) (n : Nat) (o : Occurrence) :
    Decidable (FirstAt tokens source n o) :=
  decidable_of_iff _ iff.symm

theorem offset_le (h : FirstAt tokens source n o) (h' : FirstAt tokens source n o') :
    o.offset ≤ o'.offset := by
  rcases Nat.lt_or_ge o'.offset o.offset with hlt | hge
  · exact absurd h'.stands (h.none_before o'.token h'.mem o'.offset h'.le hlt)
  · exact hge

theorem unique (h : FirstAt tokens source n o) (h' : FirstAt tokens source n o') : o = o' := by
  obtain ⟨offset, token⟩ := o
  obtain ⟨offset', token'⟩ := o'
  obtain rfl : offset = offset' := Nat.le_antisymm (h.offset_le h') (h'.offset_le h)
  have hb := Nat.le_antisymm (h'.longest token h.mem h.stands) (h.longest token' h'.mem h'.stands)
  have ht : token = token' := h.stands.unique h'.stands hb
  rw [ht]

theorem le_stop (h : FirstAt tokens source n o) : n ≤ o.stop :=
  Nat.le_trans h.le (Nat.le_add_right ..)

theorem not_noneFrom (h : FirstAt tokens source n o) : ¬ NoneFrom tokens source n :=
  fun hn => hn o.token h.mem o.offset h.le h.stands

end FirstAt

namespace Cursor

theorem in_ofText (source : String) : (ofText source).In source := TailFrom.zero source

namespace In

variable {cur next : Cursor} {source : String} {tokens : List String} {o : Occurrence}

theorem ahead (h : cur.In source) (ha : cur.Ahead next) : next.In source := by
  obtain ⟨front, -, hr, ho⟩ := ha
  unfold In at h ⊢
  rw [hr] at h
  rw [ho]
  exact h.behind

theorem earliest_eq_none_iff (h : cur.In source) :
    cur.earliest tokens = none ↔ NoneFrom tokens source cur.offset := by
  rw [Cursor.earliest_eq_none_iff]
  refine forall₂_congr fun u _ => ⟨fun hn m hm hs => ?_, fun hn k hk => ?_⟩
  · obtain ⟨skipped, back, hc, -⟩ := (TailFrom.standsAt_iff h hm).1 hs
    refine hn skipped.length ?_
    rw [hc, List.drop_left]
    exact List.prefix_append _ back
  · obtain ⟨back, hb⟩ := hk
    refine hn (cur.offset + byteLength (cur.rest.take k)) (Nat.le_add_right ..) ⟨back, ?_⟩
    unfold In at h
    rw [← List.take_append_drop k cur.rest, ← hb] at h
    exact h.behind

theorem firstAt_of_earliest (h : cur.In source) (ho : cur.earliest tokens = some o) :
    FirstAt tokens source cur.offset o := by
  obtain ⟨skipped, back, hf, hoff⟩ := firstToken_of_earliest ho
  have hle : cur.offset ≤ o.offset := by omega
  have hcut : TailFrom source o.offset (o.token.toList ++ back) := by
    unfold In at h
    rw [hf.text_eq] at h
    rw [hoff]
    exact h.behind
  refine ⟨hf.mem, hle, ⟨back, hcut⟩, ?_, ?_⟩
  · intro u hu k hk hlt hs
    obtain ⟨back', hb⟩ := hs
    obtain ⟨front, hc, -⟩ := h.eq_append_of_le hb hk
    -- The text in front of an earlier place is shorter, so the token would stand before `o`.
    obtain ⟨mid, hm, hlen⟩ := hb.eq_append_of_le hcut (Nat.le_of_lt hlt)
    have hs : skipped = front ++ mid := by
      have := hf.text_eq
      rw [hc, hm, ← List.append_assoc] at this
      exact (List.append_cancel_right this).symm
    have hne : mid ≠ [] := by
      rintro rfl
      simp only [byteLength] at hlen
      omega
    refine hf.none_before u hu front.length ?_ ?_
    · rw [hs, List.length_append]
      have := List.length_pos_iff.2 hne
      omega
    · rw [hc, List.drop_left]
      exact List.prefix_append _ back'
  · rintro u hu ⟨back', hb⟩
    have heq := hb.unique hcut
    have hp : u.toList <+: o.token.toList ++ back := heq ▸ List.prefix_append _ back'
    obtain ⟨more, hmore⟩ :=
      List.prefix_of_prefix_length_le hp (List.prefix_append _ back) (hf.longest u hu hp)
    rw [← byteLength_toList, ← byteLength_toList, ← hmore, byteLength_append]
    omega

/-- A cursor in the source finds the token that is first by its place. -/
theorem earliest_eq_some_iff (h : cur.In source) :
    cur.earliest tokens = some o ↔ FirstAt tokens source cur.offset o := by
  refine ⟨h.firstAt_of_earliest, fun hf => ?_⟩
  cases he : cur.earliest tokens with
  | none => exact absurd (h.earliest_eq_none_iff.1 he) hf.not_noneFrom
  | some o' => rw [(h.firstAt_of_earliest he).unique hf]

/-- Behind an occurrence that a cursor found, it stands where the occurrence stops. -/
theorem behind (h : cur.In source) (hne : "" ∉ tokens) (ho : cur.earliest tokens = some o) :
    (cur.behind o).In source ∧ (cur.behind o).offset = o.stop := by
  have hle := (h.firstAt_of_earliest ho).le
  refine ⟨h.ahead (ahead_behind hne ho), ?_⟩
  show cur.offset + (o.stop - cur.offset) = o.stop
  unfold Occurrence.stop
  omega

theorem found_of_firstAt (h : cur.In source) (hne : "" ∉ tokens)
    (hf : FirstAt tokens source cur.offset o) :
    cur.earliest tokens = some o ∧ (cur.behind o).In source ∧ (cur.behind o).offset = o.stop := by
  have ho := h.earliest_eq_some_iff.2 hf
  exact ⟨ho, h.behind hne ho⟩

end In

end Cursor

end TapeDialects
