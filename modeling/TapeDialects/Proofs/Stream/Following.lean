import TapeDialects.Proofs.Act.Agrees
import TapeDialects.Proofs.Stream.Decoding

/-!
# Streams that go on

Where the input is a text, delivered byte by byte, the reader takes the bytes of a character and
asks for no more (`readChar_encoded`): the first byte announces how many there are, and each of them
continues the character, so nothing is given back. What follows the text is therefore not looked at
before the text has come to its end, be it bytes, an interruption or a failure.
-/

namespace TapeDialects

open Act
open String (utf8EncodeChar)

namespace Stream

/-- The stream with more deliveries behind its own. -/
def followedBy (more : List Delivery) (s : Stream) : Stream :=
  { s with source := s.source ++ more }

theorem unread_followedBy (more : List Delivery) (s : Stream) :
    (s.followedBy more).unread = s.unread ++ Delivery.bytes more := by
  simp [followedBy, unread, Delivery.bytes]

/-- What is left to read is the text of the characters, and nothing is held. -/
def HoldsText (s : Stream) : Prop :=
  s.pending = [] ∧ ∃ cs : List Char, s.source = Delivery.ofBytes (cs.flatMap utf8EncodeChar)

variable {more : List Delivery} {sink : Sink}

theorem readContinuation_delivered {tail : List UInt8}
    (h : ∀ b ∈ tail, isContinuation b = true) :
    readContinuation tail.length ⟨[], Delivery.ofBytes tail ++ more, sink⟩ =
      (.ok tail, ⟨[], more, sink⟩) := by
  induction tail with
  | nil => rfl
  | cons b tail ih =>
    obtain ⟨hb, htail⟩ := List.forall_mem_cons.1 h
    have hbyte : readByte ⟨[], Delivery.ofBytes (b :: tail) ++ more, sink⟩ =
        (.ok (some b), ⟨[], Delivery.ofBytes tail ++ more, sink⟩) := rfl
    rw [List.length_cons, readContinuation, bind_apply, hbyte]
    dsimp only
    rw [if_pos hb, bind_apply, ih htail]
    rfl

/-- Reading a character that is delivered byte by byte leaves what is behind it as it was. -/
theorem readChar_encoded (c : Char) (more : List Delivery) (sink : Sink) :
    readChar ⟨[], Delivery.ofBytes (utf8EncodeChar c) ++ more, sink⟩ =
      (.ok c.toNat, ⟨[], more, sink⟩) := by
  obtain ⟨first, tail, he, hl, ht⟩ := encode_eq_cons c
  have hlen : sequenceLength first - 1 = tail.length := by
    have := String.length_utf8EncodeChar c
    rw [he, List.length_cons] at this
    omega
  have hbyte : readByte ⟨[], Delivery.ofBytes (first :: tail) ++ more, sink⟩ =
      (.ok (some first), ⟨[], Delivery.ofBytes tail ++ more, sink⟩) := rfl
  have hd : decodeChar? (first :: tail) = some c :=
    decodeChar?_encode_front (he ▸ List.prefix_refl _)
  rw [he, readChar, bind_apply, hbyte]
  dsimp only
  rw [bind_apply, hlen, readContinuation_delivered ht]
  dsimp only
  rw [hd]
  rfl

/-- A read does not look behind the text, unless the text has ended. -/
theorem agrees_readChar (more : List Delivery) :
    Agrees readChar HoldsText (followedBy more) (· = .inputClosed) := by
  rintro ⟨pending, source, sink⟩ ⟨rfl, cs, rfl⟩
  cases cs with
  | nil => exact .inl ⟨.inputClosed, _, rfl, rfl⟩
  | cons c cs =>
    have hsource : Delivery.ofBytes ((c :: cs).flatMap utf8EncodeChar) =
        Delivery.ofBytes (utf8EncodeChar c) ++ Delivery.ofBytes (cs.flatMap utf8EncodeChar) := by
      simp [Delivery.ofBytes]
    rw [hsource]
    refine .inr ⟨_, _, readChar_encoded c _ sink, ⟨rfl, cs, rfl⟩, ?_⟩
    rw [followedBy, List.append_assoc]
    exact readChar_encoded c _ sink

/-- Writing and flushing have nothing to do with what is left to read. -/
theorem agrees_onSink {α : Type} {E : Fault → Prop} (x : Act Sink α) (more : List Delivery) :
    Agrees (onSink x) HoldsText (followedBy more) E :=
  fun _ hs => .inr ⟨_, _, rfl, hs, rfl⟩

end Stream

end TapeDialects
