import TapeDialects.Proofs.Machine.Copies
import TapeDialects.Proofs.Tape.Moves
import TapeDialects.Tape.Bitwise

/-!
# Texts on the tape

Where all code points fit and the tape is long enough, writing a text replaces as many cells by its
code points and leaves the cells around them alone.
-/

namespace TapeDialects.Tape

open Act

/-- The code points of the characters, as values of cells. -/
def codes (cs : List Char) : List Int := cs.map fun c => (c.toNat : Int)

variable {t : Tape} {l m r : List Int} {cs : List Char}

theorem codes_take_succ {c : Char} {j : Nat} (h : cs[j]? = some c) :
    codes (cs.take (j + 1)) = codes (cs.take j) ++ [(c.toNat : Int)] := by
  simp [codes, List.take_add_one, h]

theorem setIfInBounds_between (l r : List Int) (v w : Int) :
    (l ++ v :: r).toArray.setIfInBounds l.length w = (l ++ w :: r).toArray := by
  simp

/-- The code points stand where `m` was, between `l` and `r`. -/
theorem storeCharsAt_ok (hf : ∀ c ∈ cs, t.fit c.toNat = .ok (c.toNat : Int))
    (hc : t.cells = (l ++ (m ++ r)).toArray) (hm : m.length = cs.length) :
    storeCharsAt l.length cs t =
      (.ok (), { t with cells := (l ++ (codes cs ++ r)).toArray }) := by
  induction cs generalizing t l m with
  | nil =>
    obtain rfl := List.length_eq_zero_iff.1 hm
    rw [storeCharsAt, pure_apply, codes, List.map_nil, ← hc]
  | cons c cs ih =>
    obtain ⟨v, m, rfl⟩ := List.exists_cons_of_length_eq_add_one hm
    rw [List.cons_append] at hc
    have hset : setAt l.length c.toNat t =
        (.ok (), { t with cells := (l ++ (c.toNat : Int) :: (m ++ r)).toArray }) := by
      rw [setAt_of_fit (hf c (List.mem_cons_self ..)) (by simp [hc]), hc, setIfInBounds_between]
    have hrest := ih (t := { t with cells := (l ++ (c.toNat : Int) :: (m ++ r)).toArray })
      (l := l ++ [(c.toNat : Int)]) (m := m) (fun c' hc' => hf c' (List.mem_cons_of_mem c hc'))
      (by simp) (by simpa using hm)
    rw [storeCharsAt, bind_apply, hset]
    simpa [codes] using hrest

/-- With a cell behind the text, the pointer comes to stand there. -/
theorem storeChars_ok (hf : ∀ c ∈ cs, t.fit c.toNat = .ok (c.toNat : Int))
    (hc : t.cells = (l ++ (m ++ r)).toArray) (hm : m.length = cs.length)
    (hr : r ≠ []) (hp : t.ptr = l.length) :
    storeChars cs t =
      (.ok (), { t with
        cells := (l ++ (codes cs ++ r)).toArray, ptr := l.length + cs.length }) := by
  induction cs generalizing t l m with
  | nil =>
    obtain rfl := List.length_eq_zero_iff.1 hm
    rw [storeChars, pure_apply, codes, List.map_nil, ← hc, ← hp]
    rfl
  | cons c cs ih =>
    obtain ⟨v, m, rfl⟩ := List.exists_cons_of_length_eq_add_one hm
    have hpos := List.length_pos_iff.2 hr
    rw [List.cons_append] at hc
    have hset : set c.toNat t =
        (.ok (), { t with cells := (l ++ (c.toNat : Int) :: (m ++ r)).toArray }) := by
      rw [set_apply_ok (hf c (List.mem_cons_self ..)), hc, hp, setIfInBounds_between]
    have hshift : shift 1 { t with cells := (l ++ (c.toNat : Int) :: (m ++ r)).toArray } =
        (.ok (), { t with
          cells := (l ++ (c.toNat : Int) :: (m ++ r)).toArray, ptr := t.ptr + 1 }) :=
      shift_next (by simp; omega)
    have hrest := ih (t := { t with
        cells := (l ++ (c.toNat : Int) :: (m ++ r)).toArray, ptr := t.ptr + 1 })
      (l := l ++ [(c.toNat : Int)]) (m := m) (fun c' hc' => hf c' (List.mem_cons_of_mem c hc'))
      (by simp) (by simpa using hm) (by simp [hp])
    rw [storeChars, bind_apply, hset]
    dsimp only
    rw [bind_apply, hshift]
    simpa [codes, Nat.add_assoc, Nat.add_comm 1] using hrest

/-! ### Texts on a new tape -/

/-- A new tape with a text in its first cells, and with the pointer at index `i`. -/
def withText (c : MachineConfig) (cs : List Char) (i : Nat) : Tape :=
  { ofConfig c with
    cells := (codes cs ++ List.replicate (c.tapeSize - cs.length) 0).toArray
    ptr := i }

section WithText

variable {c : MachineConfig} {i j : Nat}

theorem size_withText (h : cs.length ≤ c.tapeSize) : (withText c cs i).cells.size = c.tapeSize := by
  simp [withText, codes, h]

theorem get?_withText_text {ch : Char} (h : cs[j]? = some ch) :
    (withText c cs i).get? j = some (ch.toNat : Int) := by
  obtain ⟨hj, rfl⟩ := List.getElem?_eq_some_iff.1 h
  simp [withText, get?, codes, List.getElem?_append_left, hj]

theorem get?_withText_zero (hj : cs.length ≤ j) (h : j < c.tapeSize) :
    (withText c cs i).get? j = some 0 := by
  have hlt : j - cs.length < c.tapeSize - cs.length := by omega
  simp [withText, get?, codes, List.getElem?_append_right, hj, hlt]

theorem cells_ofConfig (h : cs.length ≤ c.tapeSize) :
    (ofConfig c).cells = ([] ++ (List.replicate cs.length (0 : Int) ++
      List.replicate (c.tapeSize - cs.length) 0)).toArray := by
  simp [ofConfig, List.replicate_append_replicate, h]

variable (hf : ∀ ch ∈ cs, (ofConfig c).fit ch.toNat = .ok (ch.toNat : Int))
include hf

theorem storeCharsAt_ofConfig (h : cs.length ≤ c.tapeSize) :
    storeCharsAt 0 cs (ofConfig c) = (.ok (), withText c cs 0) :=
  storeCharsAt_ok hf (cells_ofConfig h) List.length_replicate

theorem storeChars_ofConfig (h : cs.length < c.tapeSize) :
    storeChars cs (ofConfig c) = (.ok (), withText c cs cs.length) := by
  have hr : List.replicate (c.tapeSize - cs.length) (0 : Int) ≠ [] := by
    simp
    omega
  have hstore := storeChars_ok hf (cells_ofConfig (Nat.le_of_lt h)) List.length_replicate hr rfl
  rw [List.length_nil, Nat.zero_add] at hstore
  exact hstore

end WithText

end TapeDialects.Tape
