/-!
# TOML strings

The four kinds of strings: with and without escapes, on one line and on several.
Each reader takes the text behind the opening quotes and returns the
characters of the string and the text behind the closing quotes.
-/

namespace TapeDialects.Toml

def isBlank (c : Char) : Bool := c == ' ' || c == '\t'

def isPlain (c : Char) : Bool := c == '\t' || (' ' ≤ c && c != '\x7f')

def newline? : List Char → Option (List Char)
  | '\n' :: cs => some cs
  | '\r' :: '\n' :: cs => some cs
  | _ => none

def skipSpace : List Char → List Char
  | ' ' :: cs => skipSpace cs
  | '\t' :: cs => skipSpace cs
  | '\n' :: cs => skipSpace cs
  | '\r' :: '\n' :: cs => skipSpace cs
  | cs => cs

def hexValue? (c : Char) : Option Nat :=
  if '0' ≤ c ∧ c ≤ '9' then some (c.toNat - '0'.toNat)
  else if 'a' ≤ c ∧ c ≤ 'f' then some (c.toNat - 'a'.toNat + 10)
  else if 'A' ≤ c ∧ c ≤ 'F' then some (c.toNat - 'A'.toNat + 10)
  else none

def codePoint? (n : Nat) (cs : List Char) : Option (Char × List Char) := do
  let ds ← (cs.take n).mapM hexValue?
  let value := ds.foldl (fun v d => 16 * v + d) 0
  if ds.length = n ∧ value.isValidChar then some (Char.ofNat value, cs.drop n) else none

def escaped? : List Char → Option (Char × List Char)
  | 'b' :: cs => some ('\x08', cs)
  | 't' :: cs => some ('\t', cs)
  | 'n' :: cs => some ('\n', cs)
  | 'f' :: cs => some ('\x0c', cs)
  | 'r' :: cs => some ('\r', cs)
  | '"' :: cs => some ('"', cs)
  | '\\' :: cs => some ('\\', cs)
  | 'u' :: cs => codePoint? 4 cs
  | 'U' :: cs => codePoint? 8 cs
  | _ => none

/-- What follows a backslash that joins lines: blanks, a line end, and all space behind it. -/
def joined? (cs : List Char) : Option (List Char) := (newline? (cs.dropWhile isBlank)).map skipSpace

def basicFrom : (fuel : Nat) → (acc : List Char) → List Char → Option (String × List Char)
  | 0, _, _ => none
  | fuel + 1, acc, cs =>
    match cs with
    | [] => none
    | '"' :: cs => some (String.ofList acc.reverse, cs)
    | '\\' :: cs => do
      let (c, cs) ← escaped? cs
      basicFrom fuel (c :: acc) cs
    | c :: cs => if isPlain c then basicFrom fuel (c :: acc) cs else none

def literal? (cs : List Char) : Option (String × List Char) :=
  match cs.dropWhile fun c => isPlain c && c != '\'' with
  | '\'' :: rest => some (String.ofList (cs.takeWhile fun c => isPlain c && c != '\''), rest)
  | _ => none

/-- Ends a string on several lines: up to two quotes before the closing three belong to it. -/
def closeQuotes (quote : Char) (acc : List Char) (cs : List Char) : String × List Char :=
  let extra := (cs.take 2).takeWhile (· == quote)
  (String.ofList (extra ++ acc).reverse, cs.drop extra.length)

def basicLinesFrom : (fuel : Nat) → (acc : List Char) → List Char → Option (String × List Char)
  | 0, _, _ => none
  | fuel + 1, acc, cs =>
    match cs with
    | [] => none
    | '"' :: '"' :: '"' :: cs => some (closeQuotes '"' acc cs)
    | '\n' :: cs => basicLinesFrom fuel ('\n' :: acc) cs
    | '\r' :: '\n' :: cs => basicLinesFrom fuel ('\n' :: acc) cs
    | '\\' :: cs =>
      match joined? cs with
      | some cs => basicLinesFrom fuel acc cs
      | none => do
        let (c, cs) ← escaped? cs
        basicLinesFrom fuel (c :: acc) cs
    | c :: cs => if isPlain c then basicLinesFrom fuel (c :: acc) cs else none

def literalLinesFrom (acc : List Char) : List Char → Option (String × List Char)
  | [] => none
  | '\'' :: '\'' :: '\'' :: cs => some (closeQuotes '\'' acc cs)
  | '\n' :: cs => literalLinesFrom ('\n' :: acc) cs
  | '\r' :: '\n' :: cs => literalLinesFrom ('\n' :: acc) cs
  | c :: cs => if isPlain c then literalLinesFrom (c :: acc) cs else none

def dropNewline (cs : List Char) : List Char := (newline? cs).getD cs

def lineString? : List Char → Option (String × List Char)
  | '"' :: cs => basicFrom (cs.length + 1) [] cs
  | '\'' :: cs => literal? cs
  | _ => none

def string? : List Char → Option (String × List Char)
  | '"' :: '"' :: '"' :: cs => basicLinesFrom (cs.length + 1) [] (dropNewline cs)
  | '\'' :: '\'' :: '\'' :: cs => literalLinesFrom [] (dropNewline cs)
  | cs => lineString? cs

end TapeDialects.Toml
