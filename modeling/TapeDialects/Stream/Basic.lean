import TapeDialects.MachineConfig
import TapeDialects.Stream.Sink
import TapeDialects.Stream.Source

/-!
# Streams

The input and output of a run. Input is read as characters in UTF-8; a byte that
begins no complete character is read as its own value, and the bytes that were
looked at behind it are given back. Output is written as characters or as bytes.
-/

namespace TapeDialects

structure Stream where
  /-- Bytes that were read ahead and given back. -/
  pending : List UInt8 := []
  source : List Delivery := []
  sink : Sink := {}
  deriving DecidableEq, Repr, Inhabited

namespace Stream

def ofBytes (bs : List UInt8) : Stream := { source := Delivery.ofBytes bs }

def unread (s : Stream) : List UInt8 := s.pending ++ Delivery.bytes s.source

/-! ### Reading -/

def readByte : Act Stream (Option UInt8) := fun s =>
  match s.pending with
  | b :: pending => (.ok (some b), { s with pending })
  | [] =>
    match Delivery.next s.source with
    | (.ok b, source) => (.ok b, { s with source })
    | (.error text, source) => (.error (.stream text), { s with source })

def giveBack (bs : List UInt8) : Act Stream Unit := fun s =>
  (.ok (), { s with pending := bs ++ s.pending })

/-- The number of bytes of a character that begins with the given byte. -/
def sequenceLength (first : UInt8) : Nat :=
  if 0xc2 ≤ first ∧ first ≤ 0xdf then 2
  else if 0xe0 ≤ first ∧ first ≤ 0xef then 3
  else if 0xf0 ≤ first ∧ first ≤ 0xf4 then 4
  else 1

def isContinuation (b : UInt8) : Bool := 0x80 ≤ b && b ≤ 0xbf

def readContinuation : (n : Nat) → Act Stream (List UInt8)
  | 0 => pure []
  | n + 1 => do
    match ← readByte with
    | none => return []
    | some b =>
      if isContinuation b then
        let bs ← readContinuation n
        return b :: bs
      else
        giveBack [b]
        return []

def decodeChar? (bs : List UInt8) : Option Char := bs.toByteArray.utf8DecodeChar? 0

/-- Reads a character and returns its code point, or a byte if it begins no character. When the
source fails within a character, the bytes that were read of it are gone. -/
def readChar : Act Stream Int := do
  match ← readByte with
  | none => Act.fail .inputClosed
  | some first =>
    let tail ← readContinuation (sequenceLength first - 1)
    match decodeChar? (first :: tail) with
    | some c => return c.toNat
    | none =>
      giveBack tail
      return first.toNat

/-! ### Writing -/

def lowByte (v : Int) : UInt8 := UInt8.ofNat (v % 256).toNat

def charOf? (v : Int) : Option Char :=
  if 0 ≤ v ∧ v.toNat.isValidChar then some (Char.ofNat v.toNat) else none

/-- The bytes by which a value is written: a value that is no character is written as a byte. -/
def valueBytes (v : Int) : OutputMode → List UInt8
  | .byte => [lowByte v]
  | .char =>
    match charOf? v with
    | some c => String.utf8EncodeChar c
    | none => [lowByte v]

theorem toNat_lowByte (v : Int) : ((lowByte v).toNat : Int) = v % 256 := by
  have hnonneg := Int.emod_nonneg v (b := 256) (by omega)
  have hlt := Int.emod_lt_of_pos v (b := 256) (by omega)
  rw [lowByte, UInt8.toNat_ofNat', Nat.mod_eq_of_lt (by omega), Int.toNat_of_nonneg hnonneg]

theorem charOf?_toNat (c : Char) : charOf? c.toNat = some c := by
  have hvalid : c.toNat.isValidChar := c.valid
  simp [charOf?, hvalid]

theorem charOf?_eq_none {v : Int} (h : ∀ c : Char, v ≠ c.toNat) : charOf? v = none := by
  refine if_neg fun ⟨hnonneg, hvalid⟩ => h (Char.ofNat v.toNat) ?_
  rw [Char.ofNat, dif_pos hvalid]
  exact (Int.toNat_of_nonneg hnonneg).symm

theorem valueBytes_byte (v : Int) : valueBytes v .byte = [lowByte v] := rfl

theorem valueBytes_char (c : Char) : valueBytes c.toNat .char = String.utf8EncodeChar c := by
  rw [valueBytes, charOf?_toNat]

theorem valueBytes_other {v : Int} (h : ∀ c : Char, v ≠ c.toNat) :
    valueBytes v .char = [lowByte v] := by
  rw [valueBytes, charOf?_eq_none h]

def textBytes (text : String) : List UInt8 := text.toList.flatMap String.utf8EncodeChar

def onSink {α : Type} (x : Act Sink α) : Act Stream α := fun ⟨pending, source, sink⟩ =>
  match x sink with
  | (r, sink) => (r, ⟨pending, source, sink⟩)

def writeBytes (bs : List UInt8) : Act Stream Unit := onSink (Sink.write bs)

def writeValue (v : Int) (mode : OutputMode) : Act Stream Unit := writeBytes (valueBytes v mode)

def writeText (text : String) : Act Stream Unit := writeBytes (textBytes text)

def flush : Act Stream Unit := onSink Sink.flush

end Stream

end TapeDialects
