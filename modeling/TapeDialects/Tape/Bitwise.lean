import TapeDialects.Tape.Basic

/-!
# Bitwise effects

The extension opcodes that work on cells alone. Values are taken as words of 64
bits, which every cell of at most 32 bits fits into with its sign.
-/

namespace TapeDialects.Tape

def word (v : Int) : BitVec 64 := BitVec.ofInt 64 v

def bitOr (a b : Int) : Int := (word a ||| word b).toInt

def bitAnd (a b : Int) : Int := (word a &&& word b).toInt

def bitXor (a b : Int) : Int := (word a ^^^ word b).toInt

def bitNot (v : Int) : Int := -v - 1

/-- Moves one cell on and stores `f` of the cell that was left and the cell reached. -/
def combine (f : Int → Int → Int) : Act Tape Unit := fun t =>
  let left := t.get
  match shift 1 t with
  | (.ok (), t) => set (f left t.get) t
  | (.error e, t) => (.error e, t)

/-- Replaces the cell by its complement, cut to the width of the cell unless it has a sign. -/
def complement (signed : Bool) : Act Tape Unit := fun t =>
  set (if signed then bitNot t.get else bitAnd (bitNot t.get) t.mask) t

def shiftLeft : Act Tape Unit := fun t => set (2 * t.get) t

def shiftRight : Act Tape Unit := fun t => set (t.get / 2) t

def jumpRight : Act Tape Unit := fun t => shift t.get t

def jumpLeft : Act Tape Unit := fun t => shift (-t.get) t

/-- Writes one code point per cell from the pointer on, and leaves the pointer behind the last. -/
def storeChars : List Char → Act Tape Unit
  | [] => pure ()
  | c :: cs => do
    set c.toNat
    shift 1
    storeChars cs

/-- Writes one code point per cell from index `i` on, the pointer where it is. -/
def storeCharsAt : (i : Nat) → List Char → Act Tape Unit
  | _, [] => pure ()
  | i, c :: cs => do
    setAt i c.toNat
    storeCharsAt (i + 1) cs

end TapeDialects.Tape
