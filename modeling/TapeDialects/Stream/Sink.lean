import TapeDialects.Act

/-!
# Sinks

Where the output of a run goes: the bytes written so far, and optionally a
bound on their number and a reason for which flushing fails.
-/

namespace TapeDialects

structure Sink where
  written : Array UInt8 := #[]
  capacity : Option Nat := none
  flushFailure : Option String := none
  deriving DecidableEq, Repr, Inhabited

namespace Sink

def room (k : Sink) (bs : List UInt8) : Nat :=
  match k.capacity with
  | none => bs.length
  | some capacity => min bs.length (capacity - k.written.size)

/-- Writes as many of the bytes as there is room for; it is a fault if some are left. -/
def write (bs : List UInt8) : Act Sink Unit := fun k =>
  let n := k.room bs
  let written := { k with written := (bs.take n).foldl Array.push k.written }
  if n = bs.length then (.ok (), written) else (.error (.stream "sink full"), written)

def flush : Act Sink Unit := fun k =>
  match k.flushFailure with
  | none => (.ok (), k)
  | some text => (.error (.stream text), k)

theorem write_of_unbounded (bs : List UInt8) (k : Sink) (h : k.capacity = none) :
    write bs k = (.ok (), { k with written := k.written ++ bs.toArray }) := by
  simp [write, room, h]

end Sink

end TapeDialects
