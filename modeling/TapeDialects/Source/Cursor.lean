/-!
# Cursors

A place in a source text: how many bytes lie before it, and the characters after
it. Distances are counted in bytes of the UTF-8 form, as tokens are reported
by byte offset.
-/

namespace TapeDialects

structure Cursor where
  offset : Nat
  rest : List Char
  deriving DecidableEq, Repr

namespace Cursor

def ofText (s : String) : Cursor := ⟨0, s.toList⟩

/-- The number of bytes of a sequence of characters. -/
def byteLength : List Char → Nat
  | [] => 0
  | c :: cs => c.utf8Size + byteLength cs

/-- What follows the first `n` bytes, where at least one character is passed. -/
def passed (n : Nat) : List Char → List Char
  | [] => []
  | c :: cs => if n ≤ c.utf8Size then cs else passed (n - c.utf8Size) cs

/-- The characters that begin within the first `n` bytes. -/
def within : Nat → List Char → List Char
  | 0, _ => []
  | _ + 1, [] => []
  | n + 1, c :: cs => c :: within (n + 1 - c.utf8Size) cs

/-- The place `n` bytes further on; at least one character is passed. -/
def pass (c : Cursor) (n : Nat) : Cursor := ⟨c.offset + n, passed n c.rest⟩

def textWithin (c : Cursor) (n : Nat) : String := String.ofList (within n c.rest)

/-! ### Byte lengths -/

theorem byteLength_eq_length (cs : List Char) :
    byteLength cs = (cs.flatMap String.utf8EncodeChar).length := by
  induction cs with
  | nil => rfl
  | cons c cs ih =>
    rw [byteLength, ih, List.flatMap_cons, List.length_append, String.length_utf8EncodeChar]

theorem byteLength_append (cs ds : List Char) :
    byteLength (cs ++ ds) = byteLength cs + byteLength ds := by
  simp only [byteLength_eq_length, List.flatMap_append, List.length_append]

/-- The bytes of a text are those of its characters. -/
theorem byteLength_toList (s : String) : byteLength s.toList = s.utf8ByteSize := by
  have h : s.toList.utf8Encode = s.toByteArray := by
    rw [← String.toByteArray_ofList, String.ofList_toList]
  rw [byteLength_eq_length, ← String.size_toByteArray, ← h, List.utf8Encode]
  simp

/-! ### Passing over text -/

theorem length_passed_le (n : Nat) (cs : List Char) : (passed n cs).length ≤ cs.length := by
  induction cs generalizing n with
  | nil => simp [passed]
  | cons c cs ih =>
    simp only [passed, List.length_cons]
    split
    · omega
    · have := ih (n - c.utf8Size)
      omega

theorem length_passed_lt (n : Nat) {cs : List Char} (h : cs ≠ []) :
    (passed n cs).length < cs.length := by
  cases cs with
  | nil => contradiction
  | cons c cs =>
    simp only [passed, List.length_cons]
    split
    · omega
    · have := length_passed_le (n - c.utf8Size) cs
      omega

theorem length_rest_pass_le (c : Cursor) (n : Nat) :
    (c.pass n).rest.length ≤ c.rest.length := length_passed_le n c.rest

theorem length_rest_pass_lt (c : Cursor) (n : Nat) (h : c.rest ≠ []) :
    (c.pass n).rest.length < c.rest.length := length_passed_lt n h

theorem passed_append (front back : List Char) (h : front ≠ []) :
    passed (byteLength front) (front ++ back) = back := by
  induction front with
  | nil => contradiction
  | cons c cs ih =>
    rw [byteLength, List.cons_append, passed]
    cases cs with
    | nil => simp [byteLength]
    | cons d ds =>
      have hd := d.utf8Size_pos
      rw [if_neg (by simp only [byteLength]; omega), Nat.add_sub_cancel_left]
      exact ih (by simp)

theorem within_append (front back : List Char) :
    within (byteLength front) (front ++ back) = front := by
  induction front with
  | nil => simp [byteLength, within]
  | cons c cs ih =>
    have hp := c.utf8Size_pos
    obtain ⟨n, hn⟩ : ∃ n, c.utf8Size + byteLength cs = n + 1 :=
      ⟨c.utf8Size + byteLength cs - 1, by omega⟩
    rw [byteLength, hn, List.cons_append, within, ← hn, Nat.add_sub_cancel_left, ih]

end Cursor

end TapeDialects
