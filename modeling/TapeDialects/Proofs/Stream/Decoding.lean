import TapeDialects.Proofs.Act.Keeps
import TapeDialects.Stream.Basic

/-!
# Decoding a stream

What the characters of a stream are is said without a reader: `Stream.Decodes` cuts the bytes at
the UTF-8 encodings of characters and leaves every other byte as it is. `Stream.readChar` reads
just these values (`readChars_decodes`), although it looks ahead and gives back; interruptions of
the source are not seen.

The reader decides by the first byte how many bytes it tries. That this finds every character is a
fact about the encoder: the first byte of an encoding determines its length, and the others are
continuation bytes (`encode_eq_cons`).
-/

namespace TapeDialects

open Act
open String (utf8EncodeChar)

/-! ### Sources that end -/

namespace Delivery

/-- The source delivers bytes and interruptions, and when it has ended no more bytes. -/
def Flows : List Delivery → Prop
  | [] => True
  | .byte _ :: ds => Flows ds
  | .interrupted :: ds => Flows ds
  | .failure _ :: _ => False
  | .endOfInput :: ds => bytes ds = [] ∧ Flows ds

theorem next_of_flows {ds : List Delivery} (h : Flows ds) :
    ∃ ds', next ds = (.ok (bytes ds).head?, ds') ∧ bytes ds' = (bytes ds).tail ∧ Flows ds' := by
  induction ds with
  | nil => exact ⟨[], rfl, rfl, trivial⟩
  | cons d ds ih =>
    cases d with
    | byte b => exact ⟨ds, rfl, rfl, h⟩
    | interrupted => exact ih h
    | failure text => exact h.elim
    | endOfInput =>
      have hb : bytes (.endOfInput :: ds) = [] := h.1
      exact ⟨ds, by rw [hb]; rfl, by rw [hb, h.1]; rfl, h.2⟩

end Delivery

/-! ### The encoder -/

namespace Stream

theorem sequenceLength_eq (b : UInt8) :
    sequenceLength b =
      if 0xc2 ≤ b.toNat ∧ b.toNat ≤ 0xdf then 2
      else if 0xe0 ≤ b.toNat ∧ b.toNat ≤ 0xef then 3
      else if 0xf0 ≤ b.toNat ∧ b.toNat ≤ 0xf4 then 4
      else 1 := by
  simp only [sequenceLength, UInt8.le_iff_toNat_le]
  rfl

theorem sequenceLength_le (b : UInt8) : sequenceLength b ≤ 4 := by
  rw [sequenceLength_eq]
  split
  · decide
  · split
    · decide
    · split <;> decide

theorem isContinuation_iff (b : UInt8) :
    isContinuation b = true ↔ 0x80 ≤ b.toNat ∧ b.toNat ≤ 0xbf := by
  simp only [isContinuation, Bool.and_eq_true, decide_eq_true_eq, UInt8.le_iff_toNat_le]
  exact Iff.rfl

theorem encode_eq_cons (c : Char) :
    ∃ first tail, utf8EncodeChar c = first :: tail ∧ sequenceLength first = c.utf8Size ∧
      ∀ b ∈ tail, isContinuation b = true := by
  have hv : c.val.toNat < 0x110000 := by
    have := c.valid
    simp only [UInt32.isValidChar, Nat.isValidChar] at this
    omega
  have hl := String.length_utf8EncodeChar c
  have hcont (v : Nat) : isContinuation (UInt8.ofNat (v % 64 + 128)) = true := by
    rw [isContinuation_iff, UInt8.toNat_ofNat']
    omega
  have hnil : ∀ b ∈ ([] : List UInt8), isContinuation b = true := by simp
  rw [← hl]
  unfold utf8EncodeChar
  dsimp only
  split
  · refine ⟨_, [], rfl, ?_, hnil⟩
    rw [sequenceLength_eq, UInt8.toNat_ofNat', if_neg (by omega), if_neg (by omega),
      if_neg (by omega)]
    rfl
  · split
    · refine ⟨_, _, rfl, ?_, by simpa only [List.forall_mem_cons, hcont, true_and] using hnil⟩
      rw [sequenceLength_eq, UInt8.toNat_ofNat', if_pos (by omega)]
      rfl
    · split
      · refine ⟨_, _, rfl, ?_, by simpa only [List.forall_mem_cons, hcont, true_and] using hnil⟩
        rw [sequenceLength_eq, UInt8.toNat_ofNat', if_neg (by omega), if_pos (by omega)]
        rfl
      · refine ⟨_, _, rfl, ?_, by simpa only [List.forall_mem_cons, hcont, true_and] using hnil⟩
        rw [sequenceLength_eq, UInt8.toNat_ofNat', if_neg (by omega), if_neg (by omega),
          if_pos (by omega)]
        rfl

theorem toNat_of_encode_singleton {c : Char} {b : UInt8} (h : utf8EncodeChar c = [b]) :
    c.toNat = b.toNat := by
  unfold utf8EncodeChar at h
  dsimp only at h
  split at h
  · obtain rfl := List.singleton_inj.1 h
    rw [UInt8.toNat_ofNat', Char.toNat]
    omega
  · split at h
    · simp at h
    · split at h <;> simp at h

theorem decodeChar?_encode_front {c : Char} {bs : List UInt8} (h : utf8EncodeChar c <+: bs) :
    decodeChar? bs = some c := by
  obtain ⟨rest, rfl⟩ := h
  rw [decodeChar?, List.toByteArray_append]
  exact ByteArray.utf8DecodeChar?_utf8EncodeChar_append

theorem front_of_decodeChar? {c : Char} {bs : List UInt8} (h : decodeChar? bs = some c) :
    utf8EncodeChar c <+: bs := by
  have he := congrArg (fun b => b.data.toList) (ByteArray.eq_of_utf8DecodeChar?_eq_some h)
  simp only [ByteArray.toList_data_append, List.data_toByteArray] at he
  exact ⟨_, he.symm⟩

/-! ### What bytes stand for -/

/-- No character of more than one byte is encoded in front. -/
def NoSequence (bs : List UInt8) : Prop := ∀ c : Char, 1 < c.utf8Size → ¬ utf8EncodeChar c <+: bs

/-- The values that bytes stand for: characters that are encoded in more than one byte, and every
other byte by itself. -/
inductive Decodes : List UInt8 → List Int → Prop where
  | nil : Decodes [] []
  | char (c : Char) {bs : List UInt8} {vs : List Int} :
    1 < c.utf8Size → Decodes bs vs → Decodes (utf8EncodeChar c ++ bs) (c.toNat :: vs)
  | byte (b : UInt8) {bs : List UInt8} {vs : List Int} :
    NoSequence (b :: bs) → Decodes bs vs → Decodes (b :: bs) (b.toNat :: vs)

theorem noSequence_of_decodeChar? {bs : List UInt8} (h : decodeChar? bs = none) :
    NoSequence bs := by
  intro c _ hp
  rw [decodeChar?_encode_front hp] at h
  contradiction

theorem exists_decodes (bs : List UInt8) : ∃ vs, Decodes bs vs := by
  -- A character takes several bytes, so the induction is on their number.
  induction hn : bs.length using Nat.strongRecOn generalizing bs with
  | ind n ih =>
    subst hn
    by_cases h : ∃ c : Char, 1 < c.utf8Size ∧ utf8EncodeChar c <+: bs
    · obtain ⟨c, hc, rest, rfl⟩ := h
      have hl := String.length_utf8EncodeChar c
      obtain ⟨vs, hvs⟩ := ih rest.length (by rw [List.length_append]; omega) rest rfl
      exact ⟨_, .char c hc hvs⟩
    · cases bs with
      | nil => exact ⟨[], .nil⟩
      | cons b bs =>
        obtain ⟨vs, hvs⟩ := ih bs.length (by simp) bs rfl
        exact ⟨_, .byte b (fun c hc hp => h ⟨c, hc, hp⟩) hvs⟩

theorem Decodes.unique {bs : List UInt8} {vs ws : List Int} (h : Decodes bs vs)
    (h' : Decodes bs ws) : vs = ws := by
  -- At one place there is a character or a byte, not both, so the derivations go in step.
  induction h generalizing ws with
  | nil =>
    generalize hbs : ([] : List UInt8) = bs at h'
    cases h' with
    | nil => rfl
    | char c _ _ =>
      obtain ⟨first, tail, he, -⟩ := encode_eq_cons c
      simp [he] at hbs
    | byte => cases hbs
  | @char c bs vs hc _ ih =>
    generalize hbs : utf8EncodeChar c ++ bs = xs at h'
    have hp : utf8EncodeChar c <+: xs := ⟨bs, hbs⟩
    cases h' with
    | nil =>
      obtain ⟨first, tail, he, -⟩ := encode_eq_cons c
      simp [he] at hbs
    | char c' _ h' =>
      have hcc : some c = some c' :=
        (decodeChar?_encode_front hp).symm.trans (decodeChar?_encode_front (List.prefix_append _ _))
      obtain rfl := Option.some.inj hcc
      obtain rfl := List.append_cancel_left hbs
      rw [ih h']
    | byte b hb _ => exact absurd hp (hb c hc)
  | @byte b bs vs hb _ ih =>
    generalize hbs : b :: bs = xs at h'
    cases h' with
    | nil => cases hbs
    | char c hc _ => exact absurd (hbs ▸ List.prefix_append _ _) (hb c hc)
    | byte b' _ h' =>
      cases hbs
      rw [ih h']

/-! ### Reading -/

def Flows (s : Stream) : Prop := Delivery.Flows s.source

variable {s : Stream} {bs : List UInt8} {b : UInt8}

theorem readByte_of_flows (h : s.Flows) :
    ∃ s', readByte s = (.ok s.unread.head?, s') ∧ s'.unread = s.unread.tail ∧ s'.Flows := by
  unfold readByte
  cases hp : s.pending with
  | cons b pending =>
    exact ⟨{ s with pending := pending }, by simp [unread, hp], by simp [unread, hp], h⟩
  | nil =>
    obtain ⟨ds, hn, hb, hf⟩ := Delivery.next_of_flows h
    refine ⟨{ s with source := ds }, ?_, by simp [unread, hp, hb], hf⟩
    simp [unread, hp, hn]

def continuation (n : Nat) (bs : List UInt8) : List UInt8 := (bs.take n).takeWhile isContinuation

theorem continuation_front (n : Nat) (bs : List UInt8) : continuation n bs <+: bs :=
  (List.takeWhile_prefix _).trans (List.take_prefix n bs)

theorem continuation_append {n : Nat} {tail : List UInt8} (hn : tail.length = n)
    (hc : ∀ b ∈ tail, isContinuation b = true) (bs : List UInt8) :
    continuation n (tail ++ bs) = tail := by
  rw [continuation, List.take_left' hn]
  have h : (tail ++ []).takeWhile isContinuation = tail ++ [] := List.takeWhile_append_of_pos hc
  rwa [List.append_nil] at h

theorem readContinuation_of_flows (h : s.Flows) (n : Nat) :
    ∃ s', readContinuation n s = (.ok (continuation n s.unread), s') ∧
      continuation n s.unread ++ s'.unread = s.unread ∧ s'.Flows := by
  induction n generalizing s with
  | zero =>
    have hc : continuation 0 s.unread = [] := by simp [continuation]
    rw [hc]
    exact ⟨s, rfl, rfl, h⟩
  | succ n ih =>
    obtain ⟨s₁, hr, hu, hf⟩ := readByte_of_flows h
    rw [readContinuation, bind_apply, hr]
    cases hs : s.unread with
    | nil =>
      rw [hs] at hu
      exact ⟨s₁, rfl, by simpa [continuation] using hu, hf⟩
    | cons b bs =>
      rw [hs, List.tail_cons] at hu
      dsimp only [List.head?_cons]
      split
      · next hb =>
        obtain ⟨s₂, hr₂, hu₂, hf₂⟩ := ih hf
        rw [hu] at hr₂ hu₂
        have hc : continuation (n + 1) (b :: bs) = b :: continuation n bs := by
          simp [continuation, hb]
        refine ⟨s₂, ?_, ?_, hf₂⟩
        · rw [bind_apply, hr₂, hc]
          rfl
        · rw [hc, List.cons_append, hu₂]
      · next hb =>
        have hc : continuation (n + 1) (b :: bs) = [] := by simp [continuation, hb]
        refine ⟨{ s₁ with pending := [b] ++ s₁.pending }, ?_, ?_, hf⟩
        · rw [hc]
          rfl
        · rw [hc, List.nil_append, ← hu]
          simp [unread]

theorem readChar_char {c : Char} (h : s.Flows) (hc : 1 < c.utf8Size)
    (hs : s.unread = utf8EncodeChar c ++ bs) :
    ∃ s', readChar s = (.ok c.toNat, s') ∧ s'.unread = bs ∧ s'.Flows := by
  obtain ⟨first, tail, he, hl, ht⟩ := encode_eq_cons c
  have hlen : tail.length = sequenceLength first - 1 := by
    have := String.length_utf8EncodeChar c
    rw [he, List.length_cons] at this
    omega
  rw [he, List.cons_append] at hs
  obtain ⟨s₁, hr, hu, hf⟩ := readByte_of_flows h
  rw [hs, List.tail_cons] at hu
  obtain ⟨s₂, hr₂, hu₂, hf₂⟩ := readContinuation_of_flows hf (sequenceLength first - 1)
  rw [hu, continuation_append hlen ht] at hr₂ hu₂
  have hd : decodeChar? (first :: tail) = some c :=
    decodeChar?_encode_front (he ▸ List.prefix_refl _)
  refine ⟨s₂, ?_, List.append_cancel_left hu₂, hf₂⟩
  rw [readChar, bind_apply, hr, hs]
  dsimp only [List.head?_cons]
  rw [bind_apply, hr₂]
  dsimp only
  rw [hd]
  rfl

theorem readChar_byte (h : s.Flows) (hb : NoSequence (b :: bs)) (hs : s.unread = b :: bs) :
    ∃ s', readChar s = (.ok b.toNat, s') ∧ s'.unread = bs ∧ s'.Flows := by
  obtain ⟨s₁, hr, hu, hf⟩ := readByte_of_flows h
  rw [hs, List.tail_cons] at hu
  obtain ⟨s₂, hr₂, hu₂, hf₂⟩ := readContinuation_of_flows hf (sequenceLength b - 1)
  rw [hu] at hr₂ hu₂
  rw [readChar, bind_apply, hr, hs]
  dsimp only [List.head?_cons]
  rw [bind_apply, hr₂]
  dsimp only
  cases hd : decodeChar? (b :: continuation (sequenceLength b - 1) bs) with
  | none =>
    refine ⟨{ s₂ with pending := continuation (sequenceLength b - 1) bs ++ s₂.pending }, rfl, ?_,
      hf₂⟩
    rw [unread, List.append_assoc]
    exact hu₂
  | some c =>
    -- Only a character of one byte is left, and behind that byte nothing is tried.
    have hp := front_of_decodeChar? hd
    have hc : ¬ 1 < c.utf8Size := fun hc =>
      hb c hc (hp.trans (List.cons_prefix_cons.2 ⟨rfl, continuation_front _ bs⟩))
    have hl := String.length_utf8EncodeChar c
    obtain ⟨first, tail, he, hlen, -⟩ := encode_eq_cons c
    rw [he, List.length_cons] at hl
    obtain rfl : tail = [] := List.eq_nil_of_length_eq_zero (by omega)
    rw [he] at hp
    obtain rfl := (List.cons_prefix_cons.1 hp).1
    have hn : sequenceLength first - 1 = 0 := by omega
    refine ⟨s₂, ?_, ?_, hf₂⟩
    · rw [← toNat_of_encode_singleton he]
      rfl
    · rw [hn] at hu₂
      exact hu₂

theorem readChar_end (h : s.Flows) (hs : s.unread = []) :
    (readChar s).1 = .error .inputClosed := by
  obtain ⟨s₁, hr, -⟩ := readByte_of_flows h
  rw [readChar, bind_apply, hr, hs]
  rfl

def readChars : (n : Nat) → Act Stream (List Int)
  | 0 => pure []
  | n + 1 => do
    let v ← readChar
    let vs ← readChars n
    return v :: vs

theorem readChars_of_decodes {vs : List Int} (hd : Decodes bs vs) (hs : s.unread = bs)
    (h : s.Flows) :
    ∃ s', readChars vs.length s = (.ok vs, s') ∧ s'.unread = [] ∧ s'.Flows := by
  have cons {v : Int} {vs : List Int} {s s₁ s₂ : Stream} (h₁ : readChar s = (.ok v, s₁))
      (h₂ : readChars vs.length s₁ = (.ok vs, s₂)) :
      readChars (v :: vs).length s = (.ok (v :: vs), s₂) := by
    rw [List.length_cons, readChars, bind_apply, h₁]
    dsimp only
    rw [bind_apply, h₂]
    rfl
  induction hd generalizing s with
  | nil => exact ⟨s, rfl, hs, h⟩
  | char c hc _ ih =>
    obtain ⟨s₁, h₁, hu₁, hf₁⟩ := readChar_char h hc hs
    obtain ⟨s₂, h₂, hu₂, hf₂⟩ := ih hu₁ hf₁
    exact ⟨s₂, cons h₁ h₂, hu₂, hf₂⟩
  | byte b hb _ ih =>
    obtain ⟨s₁, h₁, hu₁, hf₁⟩ := readChar_byte h hb hs
    obtain ⟨s₂, h₂, hu₂, hf₂⟩ := ih hu₁ hf₁
    exact ⟨s₂, cons h₁ h₂, hu₂, hf₂⟩

/-! ### Bytes that are held -/

/-- The property holds at every moment of an action on a stream: before and behind each part of
it, down to the bytes that are taken and given back. -/
inductive Throughout (P : Stream → Prop) : {α : Type} → Act Stream α → Stream → Prop where
  | pure {α : Type} (a : α) {s : Stream} : P s → Throughout P (pure a : Act Stream α) s
  | fail {α : Type} (f : Fault) {s : Stream} : P s → Throughout P (Act.fail f : Act Stream α) s
  | readByte {s : Stream} : P s → P (readByte s).2 → Throughout P readByte s
  | giveBack (bs : List UInt8) {s : Stream} :
    P s → P (giveBack bs s).2 → Throughout P (giveBack bs) s
  | bind {α β : Type} {x : Act Stream α} {f : α → Act Stream β} {s : Stream} :
    Throughout P x s → (∀ a s', x s = (.ok a, s') → Throughout P (f a) s') →
      Throughout P (x >>= f) s

theorem Throughout.behind {P : Stream → Prop} {α : Type} {x : Act Stream α} {s : Stream}
    (h : Throughout P x s) : P (x s).2 := by
  induction h with
  | pure a hs => exact hs
  | fail f hs => exact hs
  | readByte _ hs => exact hs
  | giveBack bs _ hs => exact hs
  | @bind α β x f s _ _ ih ihf =>
    rw [bind_apply]
    cases hr : x s with
    | mk r s' =>
      rw [hr] at ih
      cases r with
      | error e => exact ih
      | ok a => exact ihf a s' hr

def HoldsAtMost (n : Nat) (s : Stream) : Prop := s.pending.length ≤ n

theorem pending_readByte (s : Stream) : (readByte s).2.pending = s.pending.tail := by
  unfold readByte
  split
  · next hp => rw [hp]; rfl
  · next hp => split <;> exact hp ▸ rfl

theorem length_pending_of_readByte {s s' : Stream} {r : Except Fault (Option UInt8)}
    (h : readByte s = (r, s')) : s'.pending.length = s.pending.length - 1 := by
  have hp := congrArg List.length (pending_readByte s)
  rwa [h, List.length_tail] at hp

/-- What a failed attempt gives back was held before, or is no more than it has asked for. -/
theorem length_readContinuation {n : Nat} {s s' : Stream} {bs : List UInt8}
    (h : readContinuation n s = (.ok bs, s')) :
    bs.length + s'.pending.length ≤ max s.pending.length n := by
  induction n generalizing s bs with
  | zero =>
    cases h
    simp
  | succ n ih =>
    rw [readContinuation] at h
    obtain ⟨o, s₁, hr, h⟩ := bind_eq_ok h
    have hl := length_pending_of_readByte hr
    cases o with
    | none =>
      cases h
      simp only [List.length_nil]
      omega
    | some b =>
      dsimp only at h
      split at h
      · obtain ⟨tail, s₂, hr₂, h⟩ := bind_eq_ok h
        cases h
        have := ih hr₂
        rw [List.length_cons]
        omega
      · cases h
        simp only [List.length_nil, List.length_append, List.length_cons]
        omega

theorem throughout_readByte {n : Nat} (hs : s.HoldsAtMost n) :
    Throughout (HoldsAtMost n) readByte s := by
  refine .readByte hs ?_
  rw [HoldsAtMost, pending_readByte, List.length_tail]
  exact Nat.le_trans (Nat.sub_le _ _) hs

theorem throughout_readContinuation (n : Nat) (hs : s.HoldsAtMost 3) :
    Throughout (HoldsAtMost 3) (readContinuation n) s := by
  induction n generalizing s with
  | zero => exact .pure [] hs
  | succ n ih =>
    refine .bind (throughout_readByte hs) fun o s₁ hr => ?_
    have hp := length_pending_of_readByte hr
    have hs₁ : s₁.HoldsAtMost 3 := by
      rw [HoldsAtMost] at hs ⊢
      omega
    cases o with
    | none => exact .pure [] hs₁
    | some b =>
      dsimp only
      split
      · exact .bind (ih hs₁) fun bs s₂ hr₂ => .pure (b :: bs) ((hr₂ ▸ (ih hs₁).behind :))
      · have hback : (giveBack [b] s₁).2.HoldsAtMost 3 := by
          rw [HoldsAtMost] at hs ⊢
          show ([b] ++ s₁.pending).length ≤ 3
          rw [List.length_append, List.length_singleton]
          omega
        exact .bind (.giveBack [b] hs₁ hback) fun _ s₂ hr₂ => .pure [] (hr₂ ▸ hback :)

theorem throughout_readChar (hs : s.HoldsAtMost 3) : Throughout (HoldsAtMost 3) readChar s := by
  refine .bind (throughout_readByte hs) fun o s₁ hr => ?_
  have hp := length_pending_of_readByte hr
  have hs₁ : s₁.HoldsAtMost 3 := by
    rw [HoldsAtMost] at hs ⊢
    omega
  cases o with
  | none => exact .fail .inputClosed hs₁
  | some first =>
    have ht := throughout_readContinuation (sequenceLength first - 1) hs₁
    refine .bind ht fun tail s₂ hr₂ => ?_
    have hs₂ : s₂.HoldsAtMost 3 := (hr₂ ▸ ht.behind :)
    cases decodeChar? (first :: tail) with
    | some c => exact .pure _ hs₂
    | none =>
      have hl := length_readContinuation hr₂
      have hfour := sequenceLength_le first
      have hback : (giveBack tail s₂).2.HoldsAtMost 3 := by
        rw [HoldsAtMost] at hs ⊢
        show (tail ++ s₂.pending).length ≤ 3
        rw [List.length_append]
        omega
      exact .bind (.giveBack tail hs₂ hback) fun _ s₃ hr₃ => .pure _ (hr₃ ▸ hback :)

theorem throughout_readChars (n : Nat) (hs : s.HoldsAtMost 3) :
    Throughout (HoldsAtMost 3) (readChars n) s := by
  induction n generalizing s with
  | zero => exact .pure [] hs
  | succ n ih =>
    have hchar := throughout_readChar hs
    refine .bind hchar fun v s₁ hr => ?_
    have hs₁ : s₁.HoldsAtMost 3 := (hr ▸ hchar.behind :)
    exact .bind (ih hs₁) fun vs s₂ hr₂ => .pure (v :: vs) ((hr₂ ▸ (ih hs₁).behind :))

/-- Whatever bytes a source delivers until it ends, and however often it is interrupted: they have
exactly one decoding, reading characters until the input is closed gives this decoding, and no more
than three bytes are held at any moment. -/
theorem readChars_decodes {ds : List Delivery} (h : Delivery.Flows ds) (sink : Sink) :
    ∃ vs s, Decodes (Delivery.bytes ds) vs ∧ (∀ ws, Decodes (Delivery.bytes ds) ws → ws = vs) ∧
      readChars vs.length ⟨[], ds, sink⟩ = (.ok vs, s) ∧ (readChar s).1 = .error .inputClosed ∧
      ∀ n, Throughout (HoldsAtMost 3) (readChars n) ⟨[], ds, sink⟩ := by
  obtain ⟨vs, hd⟩ := exists_decodes (Delivery.bytes ds)
  obtain ⟨s, hr, hu, hf⟩ := readChars_of_decodes (s := ⟨[], ds, sink⟩) hd rfl h
  exact ⟨vs, s, hd, fun ws hw => hw.unique hd, hr, readChar_end hf hu,
    fun n => throughout_readChars n (Nat.zero_le 3)⟩

/-- A sequence that breaks off, a surrogate, an interrupted character, and one that breaks off at
the end. -/
theorem readChars_decodes_broken :
    let ds : List Delivery :=
      [.byte 0xe3, .byte 0x81, .byte 0xed, .byte 0xa0, .byte 0x80, .byte 0xe3, .interrupted,
        .byte 0x81, .byte 0x82, .byte 0xf0, .endOfInput]
    ∃ s, readChars 7 ⟨[], ds, {}⟩ = (.ok [0xe3, 0x81, 0xed, 0xa0, 0x80, 0x3042, 0xf0], s) ∧
      (readChar s).1 = .error .inputClosed := by
  intro ds
  have hd : Decodes (Delivery.bytes ds) [0xe3, 0x81, 0xed, 0xa0, 0x80, 0x3042, 0xf0] :=
    have none {bs : List UInt8} (h : decodeChar? bs = none) : NoSequence bs :=
      noSequence_of_decodeChar? h
    .byte 0xe3 (none (by decide)) <| .byte 0x81 (none (by decide)) <|
    .byte 0xed (none (by decide)) <| .byte 0xa0 (none (by decide)) <|
    .byte 0x80 (none (by decide)) <| .char 'あ' (by decide) <|
    .byte 0xf0 (none (by decide)) .nil
  have hf : Delivery.Flows ds := ⟨rfl, trivial⟩
  obtain ⟨vs, s, -, hu, hr, hc, -⟩ := readChars_decodes hf {}
  obtain rfl := hu _ hd
  exact ⟨s, hr, hc⟩

end Stream

end TapeDialects
