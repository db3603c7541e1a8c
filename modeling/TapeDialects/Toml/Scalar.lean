import TapeDialects.Toml.Value

/-!
# TOML numbers, truth values and moments

The values that are written as one word: integers in four bases, other numbers,
truth values, dates and times. The value of an integer matters here; of the
others it only matters that they are well formed.
-/

namespace TapeDialects.Toml

def isWordChar (c : Char) : Bool :=
  c.isAlphanum || c == '_' || c == '+' || c == '-' || c == '.' || c == ':'

def isDigitOf (base : Nat) (c : Char) : Bool :=
  if c.isDigit then c.toNat - '0'.toNat < base
  else base == 16 && (('a' ≤ c && c ≤ 'f') || ('A' ≤ c && c ≤ 'F'))

def digitValue (c : Char) : Nat :=
  if c.isDigit then c.toNat - '0'.toNat
  else if 'a' ≤ c then c.toNat - 'a'.toNat + 10
  else c.toNat - 'A'.toNat + 10

def digitsValue (base : Nat) (cs : List Char) : Nat :=
  cs.foldl (fun n c => base * n + digitValue c) 0

/-- The digits of a number whose digits may be grouped by single underscores. -/
def ungroup? (base : Nat) : List Char → Option (List Char)
  | [] => none
  | [c] => if isDigitOf base c then some [c] else none
  | c :: '_' :: cs => if isDigitOf base c then (ungroup? base cs).map (c :: ·) else none
  | c :: cs => if isDigitOf base c then (ungroup? base cs).map (c :: ·) else none

def unsign : List Char → Bool × List Char
  | '-' :: cs => (true, cs)
  | '+' :: cs => (false, cs)
  | cs => (false, cs)

/-- The digits of a decimal number, which has no leading zero. -/
def decimal? (cs : List Char) : Option (List Char) :=
  match ungroup? 10 cs with
  | some ('0' :: _ :: _) => none
  | ds => ds

def word64? (v : Int) : Option Int := if Int.bmod v (1 <<< 64) = v then some v else none

def integer? : List Char → Option Int
  | '0' :: 'x' :: cs => (ungroup? 16 cs).bind fun ds => word64? (digitsValue 16 ds)
  | '0' :: 'o' :: cs => (ungroup? 8 cs).bind fun ds => word64? (digitsValue 8 ds)
  | '0' :: 'b' :: cs => (ungroup? 2 cs).bind fun ds => word64? (digitsValue 2 ds)
  | cs =>
    (decimal? (unsign cs).2).bind fun ds =>
      word64? (if (unsign cs).1 then -digitsValue 10 ds else digitsValue 10 ds)

/-- The digits and the decimal exponent of a number with a fraction or an exponent, both of which
may be there. -/
def fractional? (cs : List Char) : Option (List Char × Int) := do
  let mantissa := cs.takeWhile fun c => c != 'e' && c != 'E'
  let fraction := mantissa.dropWhile (· != '.')
  let exponent := cs.dropWhile fun c => c != 'e' && c != 'E'
  if fraction.isEmpty && exponent.isEmpty then none
  else
    let whole ← decimal? (mantissa.takeWhile (· != '.'))
    let part ← if fraction.isEmpty then some [] else ungroup? 10 fraction.tail
    let scale ← if exponent.isEmpty then some [] else ungroup? 10 (unsign exponent.tail).2
    let power : Int := digitsValue 10 scale
    let power := if (unsign exponent.tail).1 then -power else power
    return (whole ++ part, power - part.length)

/-- Half a unit above the greatest number of double precision. -/
def doubleBound : Nat := ((1 <<< 54) - 1) <<< 970

/-- Whether a decimal number is rounded to infinity in double precision. The bound is a whole number
of 309 digits, so what stands behind that many digits does not matter. -/
def exceedsDouble (digits : List Char) (power : Int) : Bool :=
  let ds := digits.dropWhile (· == '0')
  let places := ds.length + power
  if ds.isEmpty || places < 309 then false
  else places > 309 || doubleBound ≤ digitsValue 10 ((ds ++ List.replicate 309 '0').take 309)

/-- Whether a word is a number with a fraction or an exponent that is not too large, or one that
stands for infinity or for no number. Only a number above zero can be too large. -/
def isFloat (cs : List Char) : Bool :=
  match unsign cs with
  | (_, ['i', 'n', 'f']) | (_, ['n', 'a', 'n']) => true
  | (negative, cs) =>
    match fractional? cs with
    | some (digits, power) => negative || !exceedsDouble digits power
    | none => false

def digits? (n : Nat) (cs : List Char) : Option (Nat × List Char) :=
  let ds := cs.take n
  if ds.length = n ∧ ds.all (·.isDigit) then some (digitsValue 10 ds, cs.drop n) else none

def daysOf (year month : Nat) : Nat :=
  if month = 2 then
    if year % 4 = 0 ∧ (year % 100 ≠ 0 ∨ year % 400 = 0) then 29 else 28
  else if month ∈ [4, 6, 9, 11] then 30
  else 31

/-- What follows a date. -/
def date? (cs : List Char) : Option (List Char) := do
  let (year, '-' :: cs) ← digits? 4 cs | none
  let (month, '-' :: cs) ← digits? 2 cs | none
  let (day, cs) ← digits? 2 cs
  if 1 ≤ month ∧ month ≤ 12 ∧ 1 ≤ day ∧ day ≤ daysOf year month then some cs else none

def time? (cs : List Char) : Option (List Char) := do
  let (hour, ':' :: cs) ← digits? 2 cs | none
  let (minute, ':' :: cs) ← digits? 2 cs | none
  let (second, cs) ← digits? 2 cs
  if ¬(hour ≤ 23 ∧ minute ≤ 59 ∧ second ≤ 60) then none
  else
    match cs with
    | '.' :: cs =>
      if (cs.takeWhile (·.isDigit)).isEmpty then none else some (cs.dropWhile (·.isDigit))
    | cs => some cs

def isOffset : List Char → Bool
  | [] => true
  | ['Z'] | ['z'] => true
  | c :: cs =>
    (c == '+' || c == '-') &&
      match digits? 2 cs with
      | some (hour, ':' :: cs) =>
        match digits? 2 cs with
        | some (minute, []) => hour ≤ 23 && minute ≤ 59
        | _ => false
      | _ => false

def isTimeWithOffset (cs : List Char) : Bool :=
  match time? cs with
  | some rest => isOffset rest
  | none => false

def isDate (cs : List Char) : Bool := date? cs == some []

def isMoment (cs : List Char) : Bool :=
  time? cs == some [] ||
    match date? cs with
    | some [] => true
    | some (c :: rest) => (c == 'T' || c == 't') && isTimeWithOffset rest
    | none => false

def word? (cs : List Char) : Option Value :=
  if cs = "true".toList then some (.boolean true)
  else if cs = "false".toList then some (.boolean false)
  else if isMoment cs then some .moment
  else if isFloat cs then some .float
  else (integer? cs).map .integer

end TapeDialects.Toml
