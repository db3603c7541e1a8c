import TapeDialects.Proofs.Stream.Decoding

/-!
# Reads that fail

A byte is off the stream as soon as the reader has it. The reader gives back what turns out to
belong to no character, but a source that fails within a character stops it before it knows. The
bytes that it holds by then are lost: they are the front of a character that breaks off
(`readChar_failed_iff`), and nothing is lost exactly if the source fails before the first of them
(`unread_of_readChar_failed`).
-/

namespace TapeDialects

open Act

namespace Delivery

/-- Whatever else a source answers, it has kept its bytes. -/
theorem bytes_of_next {ds rest : List Delivery} {r : Except String (Option UInt8)}
    (h : next ds = (r, rest)) (hr : ∀ b, r ≠ .ok (some b)) : bytes rest = bytes ds := by
  induction ds with
  | nil =>
    cases h
    rfl
  | cons d ds ih =>
    cases d with
    | byte b =>
      cases h
      exact absurd rfl (hr b)
    | interrupted => exact ih h
    | failure text =>
      cases h
      rfl
    | endOfInput =>
      cases h
      rfl

end Delivery

namespace Stream

variable {s s' s₁ : Stream} {b : UInt8} {bs : List UInt8} {text : String}

/-! ### Bytes that are taken -/

theorem unread_of_readByte_some (h : readByte s = (.ok (some b), s')) :
    s.unread = b :: s'.unread := by
  unfold readByte at h
  cases hp : s.pending with
  | cons a pending =>
    rw [hp] at h
    cases h
    simp [unread, hp]
  | nil =>
    rw [hp] at h
    cases hn : Delivery.next s.source with
    | mk r source =>
      rw [hn] at h
      cases r with
      | error text => cases h
      | ok o =>
        cases h
        simp [unread, hp, Delivery.bytes_of_next_some hn]

/-- A failure comes from the source, so nothing was held. -/
theorem readByte_failed (h : readByte s = (.error (.stream text), s')) :
    s'.pending = [] ∧ s'.unread = s.unread := by
  unfold readByte at h
  cases hp : s.pending with
  | cons a pending =>
    rw [hp] at h
    cases h
  | nil =>
    rw [hp] at h
    cases hn : Delivery.next s.source with
    | mk r source =>
      rw [hn] at h
      cases r with
      | ok o => cases h
      | error text =>
        cases h
        exact ⟨rfl, by simp [unread, hp, Delivery.bytes_of_next hn (by simp)]⟩

/-- The source fails behind the bytes: they have been taken off the first stream one after another,
and the next attempt has failed and left the second stream. -/
inductive FailsBehind (text : String) : Stream → List UInt8 → Stream → Prop where
  | nil {s s' : Stream} : readByte s = (.error (.stream text), s') → FailsBehind text s [] s'
  | cons {s s₁ s' : Stream} {b : UInt8} {bs : List UInt8} :
    readByte s = (.ok (some b), s₁) → FailsBehind text s₁ bs s' → FailsBehind text s (b :: bs) s'

theorem FailsBehind.unread (h : FailsBehind text s bs s') : s.unread = bs ++ s'.unread := by
  induction h with
  | nil hf => rw [(readByte_failed hf).2, List.nil_append]
  | cons hb _ ih => rw [unread_of_readByte_some hb, ih, List.cons_append]

theorem FailsBehind.pending (h : FailsBehind text s bs s') : s'.pending = [] := by
  induction h with
  | nil hf => exact (readByte_failed hf).1
  | cons _ _ ih => exact ih

/-- The failure comes first exactly if no byte does. -/
theorem FailsBehind.eq_nil_iff (h : FailsBehind text s bs s') :
    bs = [] ↔ (readByte s).1 = .error (.stream text) := by
  cases h with
  | nil hf => simp [hf]
  | cons hb _ => simp [hb]

/-! ### Where a read fails -/

theorem readContinuation_of_failsBehind {n : Nat} (h : FailsBehind text s bs s')
    (hn : bs.length < n) (hc : ∀ b ∈ bs, isContinuation b = true) :
    readContinuation n s = (.error (.stream text), s') := by
  induction h generalizing n with
  | nil hf =>
    obtain ⟨n, rfl⟩ := Nat.exists_eq_add_of_lt hn
    rw [readContinuation, bind_apply, hf]
  | @cons s s₁ s' b bs hb _ ih =>
    obtain ⟨n, rfl⟩ : ∃ k, n = k + 1 := ⟨n - 1, by omega⟩
    obtain ⟨hcb, hcs⟩ := List.forall_mem_cons.1 hc
    rw [readContinuation, bind_apply, hb]
    dsimp only
    rw [if_pos hcb, bind_apply, ih (Nat.lt_of_succ_lt_succ hn) hcs]

theorem failsBehind_of_readContinuation {n : Nat}
    (h : readContinuation n s = (.error (.stream text), s')) :
    ∃ tail, FailsBehind text s tail s' ∧ tail.length < n ∧ ∀ b ∈ tail, isContinuation b = true := by
  induction n generalizing s with
  | zero => cases h
  | succ n ih =>
    rw [readContinuation, bind_apply] at h
    cases hb : readByte s with
    | mk r s₁ =>
      rw [hb] at h
      rcases r with f | _ | b
      · cases h
        exact ⟨[], .nil hb, Nat.zero_lt_succ n, by simp⟩
      · cases h
      · dsimp only at h
        split at h
        · next hc =>
          rw [bind_apply] at h
          cases hr : readContinuation n s₁ with
          | mk r s₂ =>
            rw [hr] at h
            cases r with
            | ok tail => cases h
            | error f =>
              cases h
              obtain ⟨tail, ht, hl, htail⟩ := ih hr
              exact ⟨b :: tail, .cons hb ht, Nat.succ_lt_succ hl,
                List.forall_mem_cons.2 ⟨hc, htail⟩⟩
        · cases h

/-- The front of the bytes of a character: fewer than the first one announces. -/
def BreaksOff : List UInt8 → Prop
  | [] => True
  | first :: tail =>
    tail.length < sequenceLength first - 1 ∧ ∀ b ∈ tail, isContinuation b = true

/-- A read fails where the source does, behind the front of a character. -/
theorem readChar_failed_iff :
    readChar s = (.error (.stream text), s') ↔ ∃ lost, BreaksOff lost ∧ FailsBehind text s lost s' := by
  constructor
  · intro h
    rw [readChar, bind_apply] at h
    cases hb : readByte s with
    | mk r s₁ =>
      rw [hb] at h
      rcases r with f | _ | first
      · cases h
        exact ⟨[], trivial, .nil hb⟩
      · cases h
      · dsimp only at h
        rw [bind_apply] at h
        cases hr : readContinuation (sequenceLength first - 1) s₁ with
        | mk r s₂ =>
          rw [hr] at h
          cases r with
          | ok tail =>
            cases hd : decodeChar? (first :: tail) <;> simp only [hd] at h <;> cases h
          | error f =>
            cases h
            obtain ⟨tail, ht, hl, hc⟩ := failsBehind_of_readContinuation hr
            exact ⟨first :: tail, ⟨hl, hc⟩, .cons hb ht⟩
  · rintro ⟨lost, hlost, h⟩
    cases h with
    | nil hf => rw [readChar, bind_apply, hf]
    | cons hb h =>
      rw [readChar, bind_apply, hb]
      dsimp only
      rw [bind_apply, readContinuation_of_failsBehind h hlost.1 hlost.2]

/-- A read that fails loses the bytes that it has taken, the front of a character that breaks off.
The others are read as if they were all. Nothing is lost exactly if the source fails before the
first byte. -/
theorem unread_of_readChar_failed (h : readChar s = (.error (.stream text), s')) :
    ∃ lost, BreaksOff lost ∧ s.unread = lost ++ s'.unread ∧ s'.pending = [] ∧
      (s'.unread = s.unread ↔ (readByte s).1 = .error (.stream text)) ∧
      (s'.Flows → ∀ vs, Decodes s'.unread vs →
        ∃ t, readChars vs.length s' = (.ok vs, t) ∧ (readChar t).1 = .error .inputClosed) := by
  obtain ⟨lost, hlost, hf⟩ := readChar_failed_iff.1 h
  have hu := hf.unread
  refine ⟨lost, hlost, hu, hf.pending, ?_, fun hflows vs hd => ?_⟩
  · rw [← hf.eq_nil_iff, hu]
    exact ⟨fun h => by simpa using h, fun h => by simp [h]⟩
  · obtain ⟨t, hr, ht, hft⟩ := readChars_of_decodes hd rfl hflows
    exact ⟨t, hr, readChar_end hft ht⟩

/-- A byte that was given back and two from the source are lost; the last one of the character is
then read by itself. -/
theorem unread_of_readChar_failed_within_character :
    let s : Stream :=
      { pending := [0xf0]
        source := [.byte 0x9f, .interrupted, .byte 0x98, .failure "broken", .byte 0x80] }
    let s' : Stream := { source := [.byte 0x80] }
    readChar s = (.error (.stream "broken"), s') ∧ s'.unread ≠ s.unread ∧
      ∃ t, readChars 1 s' = (.ok [0x80], t) ∧ (readChar t).1 = .error .inputClosed := by
  intro s s'
  have h : readChar s = (.error (.stream "broken"), s') := rfl
  have hfirst : (readByte s).1 = .ok (some 0xf0) := rfl
  have hd : Decodes s'.unread [0x80] := .byte 0x80 (noSequence_of_decodeChar? (by decide)) .nil
  obtain ⟨lost, -, -, -, hiff, hlater⟩ := unread_of_readChar_failed h
  exact ⟨h, fun hu => by simpa [hfirst] using hiff.1 hu, hlater trivial _ hd⟩

/-- The source fails behind the first byte of a character of three bytes. The next read answers with
the second byte, where without the failure it would be the character. -/
theorem unread_ne_of_readChar_failed :
    let s : Stream := { source := [.byte 0xe3, .failure "broken", .byte 0x81, .byte 0x82] }
    let s' := (readChar s).2
    (readChar s).1 = .error (.stream "broken") ∧ s'.unread ≠ s.unread ∧
      (readChar s').1 = .ok 0x81 ∧ (readChar (ofBytes s.unread)).1 = .ok 0x3042 :=
  ⟨rfl, by decide, rfl, rfl⟩

end Stream

end TapeDialects
