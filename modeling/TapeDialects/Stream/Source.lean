/-!
# Sources

Where the input of a run comes from: a script of deliveries, one for each time
that a byte is asked for. Besides bytes, a source can be interrupted, can
fail, and can report its end and still go on later.
-/

namespace TapeDialects

/-- The answer of a source when it is asked for a byte. -/
inductive Delivery where
  | byte (b : UInt8)
  | interrupted
  | failure (text : String)
  /-- The source reports its end once. -/
  | endOfInput
  deriving DecidableEq, Repr

namespace Delivery

def ofBytes (bs : List UInt8) : List Delivery := bs.map .byte

def next : List Delivery → Except String (Option UInt8) × List Delivery
  | [] => (.ok none, [])
  | .byte b :: ds => (.ok (some b), ds)
  | .interrupted :: ds => next ds
  | .failure text :: ds => (.error text, ds)
  | .endOfInput :: ds => (.ok none, ds)

def bytes (ds : List Delivery) : List UInt8 :=
  ds.filterMap fun
    | .byte b => some b
    | _ => none

theorem bytes_ofBytes (bs : List UInt8) : bytes (ofBytes bs) = bs := by
  induction bs with
  | nil => rfl
  | cons b bs ih => exact congrArg (b :: ·) ih

theorem bytes_of_next_some {ds rest : List Delivery} {b : UInt8}
    (h : next ds = (.ok (some b), rest)) : bytes ds = b :: bytes rest := by
  induction ds with
  | nil => simp [next] at h
  | cons d ds ih =>
    cases d with
    | byte a =>
      simp only [next, Prod.mk.injEq, Except.ok.injEq, Option.some.injEq] at h
      obtain ⟨rfl, rfl⟩ := h
      rfl
    | interrupted => exact ih h
    | failure text => simp [next] at h
    | endOfInput => simp [next] at h

end Delivery

end TapeDialects
