import TapeDialects.Proofs.Stream.Decoding

/-!
# Reading what was written

A character is written as its encoding, and the encodings of characters in a row have one decoding,
the characters (`decodes_encoded`): none begins within another, and a character of one byte begins
no longer one. So reading the bytes that characters were written as gives the characters back
(`readChars_written`).
-/

namespace TapeDialects

open Act
open String (utf8EncodeChar)

theorem Delivery.flows_ofBytes (bs : List UInt8) : Delivery.Flows (Delivery.ofBytes bs) := by
  induction bs with
  | nil => trivial
  | cons b bs ih => exact ih

namespace Sink

/-- The sink takes `n` more bytes. -/
def Accepts (k : Sink) (n : Nat) : Prop :=
  ∀ capacity, k.capacity = some capacity → k.written.size + n ≤ capacity

theorem write_of_accepts {k : Sink} {bs : List UInt8} (h : k.Accepts bs.length) :
    write bs k = (.ok (), { k with written := k.written ++ bs.toArray }) := by
  have hroom : k.room bs = bs.length := by
    unfold room
    cases hc : k.capacity with
    | none => rfl
    | some capacity =>
      have := h capacity hc
      dsimp only
      omega
  simp [write, hroom]

end Sink

namespace Stream

variable {s : Stream} {cs : List Char}

/-! ### Writing -/

theorem flatMap_valueBytes_char (cs : List Char) :
    (cs.map fun c => (c.toNat : Int)).flatMap (valueBytes · .char) =
      cs.flatMap utf8EncodeChar := by
  simp [List.flatMap_map, valueBytes_char]

def writeValues (mode : OutputMode) : List Int → Act Stream Unit
  | [] => pure ()
  | v :: vs => do
    writeValue v mode
    writeValues mode vs

theorem writeValue_of_accepts {mode : OutputMode} {v : Int}
    (h : s.sink.Accepts (valueBytes v mode).length) :
    writeValue v mode s =
      (.ok (), { s with
        sink := { s.sink with written := s.sink.written ++ (valueBytes v mode).toArray } }) := by
  simp [writeValue, writeBytes, onSink, Sink.write_of_accepts h]

theorem writeValues_of_accepts {mode : OutputMode} {vs : List Int}
    (h : s.sink.Accepts (vs.flatMap (valueBytes · mode)).length) :
    writeValues mode vs s =
      (.ok (), { s with
        sink :=
          { s.sink with
            written := s.sink.written ++ (vs.flatMap (valueBytes · mode)).toArray } }) := by
  induction vs generalizing s with
  | nil => simp [writeValues, pure_apply]
  | cons v vs ih =>
    rw [List.flatMap_cons, List.length_append] at h
    have hv : s.sink.Accepts (valueBytes v mode).length := fun capacity hc => by
      have := h capacity hc
      omega
    rw [writeValues, bind_apply, writeValue_of_accepts hv]
    dsimp only
    rw [ih fun capacity hc => ?_]
    · simp
    · have := h capacity hc
      simp only [Array.size_append, List.size_toArray]
      omega

/-! ### Encodings in a row -/

/-- What begins with the encoding of a character of one byte begins with no longer one. -/
theorem noSequence_of_singleton {c : Char} {b : UInt8} (h : utf8EncodeChar c = [b])
    (bs : List UInt8) : NoSequence (b :: bs) := by
  intro c' hc' hp
  have hfront : utf8EncodeChar c <+: b :: bs := h ▸ List.prefix_append [b] bs
  have hsame : some c = some c' :=
    (decodeChar?_encode_front hfront).symm.trans (decodeChar?_encode_front hp)
  obtain rfl := Option.some.inj hsame
  have hl := String.length_utf8EncodeChar c
  rw [h, List.length_singleton] at hl
  omega

theorem decodes_encoded (cs : List Char) :
    Decodes (cs.flatMap utf8EncodeChar) (cs.map fun c => (c.toNat : Int)) := by
  induction cs with
  | nil => exact .nil
  | cons c cs ih =>
    rw [List.flatMap_cons, List.map_cons]
    by_cases hc : 1 < c.utf8Size
    · exact .char c hc ih
    · obtain ⟨b, tail, he, -⟩ := encode_eq_cons c
      have hl := String.length_utf8EncodeChar c
      rw [he, List.length_cons] at hl
      obtain rfl : tail = [] := List.eq_nil_of_length_eq_zero (by omega)
      rw [he, toNat_of_encode_singleton he, List.singleton_append]
      exact .byte b (noSequence_of_singleton he _) ih

/-- Writing characters to a sink that takes their encodings succeeds. However the bytes are then
delivered, reading them until the input is closed gives exactly the characters. -/
theorem readChars_written (h : s.sink.Accepts (cs.flatMap utf8EncodeChar).length) :
    let codes := cs.map fun c => (c.toNat : Int)
    ∃ s' bs, writeValues .char codes s = (.ok (), s') ∧
      s'.sink.written = s.sink.written ++ bs.toArray ∧
      ∀ ds sink, Delivery.Flows ds → Delivery.bytes ds = bs →
        ∃ t, readChars cs.length ⟨[], ds, sink⟩ = (.ok codes, t) ∧
          (readChar t).1 = .error .inputClosed := by
  intro codes
  have hbytes : codes.flatMap (valueBytes · .char) = _ := flatMap_valueBytes_char cs
  refine ⟨_, _, writeValues_of_accepts (hbytes ▸ h), rfl, fun ds sink hf hd => ?_⟩
  have hdecodes := decodes_encoded cs
  rw [← hbytes, ← hd] at hdecodes
  obtain ⟨t, hr, hu, hft⟩ := readChars_of_decodes (s := ⟨[], ds, sink⟩) hdecodes rfl hf
  rw [List.length_map] at hr
  exact ⟨t, hr, readChar_end hft hu⟩

/-- The least and the greatest character of each length, and those on both sides of the surrogates,
into a sink that they fill up. -/
theorem readChars_written_borders :
    let cs : List Char :=
      ['\x00', '\x7f', '\u0080', '\u07ff', '\u0800', '\ud7ff', '\ue000', '\uffff',
        Char.ofNat 0x10000, Char.ofNat 0x10ffff]
    let codes : List Int :=
      [0, 0x7f, 0x80, 0x7ff, 0x800, 0xd7ff, 0xe000, 0xffff, 0x10000, 0x10ffff]
    let s : Stream := { sink := { capacity := some 26 } }
    s.sink.Accepts (cs.flatMap utf8EncodeChar).length ∧
      ∃ s' t, writeValues .char codes s = (.ok (), s') ∧
        readChars 10 (ofBytes s'.sink.written.toList) = (.ok codes, t) ∧
        (readChar t).1 = .error .inputClosed := by
  intro cs codes s
  have hcodes : cs.map (fun c => (c.toNat : Int)) = codes := by decide
  have haccepts : s.sink.Accepts (cs.flatMap utf8EncodeChar).length := by
    intro capacity hc
    obtain rfl := Option.some.inj hc
    decide
  obtain ⟨s', bs, hw, hwritten, hread⟩ := readChars_written haccepts
  obtain ⟨t, hr, hend⟩ := hread _ {} (Delivery.flows_ofBytes bs) (Delivery.bytes_ofBytes bs)
  rw [hcodes] at hw hr
  have hbs : s'.sink.written.toList = bs := by simp [hwritten, s]
  exact ⟨haccepts, s', t, hw, by rw [hbs]; exact hr, hend⟩

end Stream

end TapeDialects
