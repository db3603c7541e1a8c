import Mathlib.Algebra.Order.Ring.Int
import Mathlib.Data.Nat.Cast.Order.Ring
import Mathlib.Order.Bounds.Basic
import TapeDialects.Proofs.Act.Series
import TapeDialects.Proofs.Tape.Moves

/-!
# Paths of the pointer

Where a series of moves leads. Without edges the pointer would come to the sum of the moves, and the
edge decides at which indices of that path it may stand (`Tape.Admits`). A growing tape changes its
length on the way, but not the greatest length that it can have, so that the tape at the start tells
which moves will be refused.

The pointer and a move are added as words of 64 bits, so what is said of a series of moves is said
where each of these sums is a word (`Tape.MovesInWords`).
-/

namespace TapeDialects.Tape

open Act

/-- The index to which the moves lead, were there no edges. -/
def destination (t : Tape) (moves : List Int) : Int := t.ptr + moves.sum

/-- The indices to which the moves lead one after another, the one of the pointer included. -/
def path (t : Tape) (moves : List Int) : Set Int :=
  {i | ∃ front, front <+: moves ∧ t.destination front = i}

/-- The pointer may move to the index: to one of the tape, to any of a ring, and to one of the
longest tape that a growing one can become. -/
def Admits (t : Tape) (index : Int) : Prop :=
  match t.edge with
  | .error => 0 ≤ index ∧ index < t.cells.size
  | .wrap => True
  | .grow => 0 ≤ index ∧ index < max t.cells.size growLimit

instance (t : Tape) (index : Int) : Decidable (t.Admits index) :=
  match h : t.edge with
  | .error => decidable_of_iff (0 ≤ index ∧ index < t.cells.size) (by simp only [Admits, h])
  | .wrap => .isTrue (by simp only [Admits, h])
  | .grow =>
    decidable_of_iff (0 ≤ index ∧ index < max t.cells.size growLimit) (by simp only [Admits, h])

/-- The tape with which the moves end if none of them is refused. Only a growing tape becomes
longer, up to the last index on the path. -/
inductive Moved (t : Tape) (moves : List Int) : Tape → Prop where
  | error (i : Nat) (he : t.edge = .error) (hi : t.destination moves = i) :
    Moved t moves { t with ptr := i }
  | wrap (i : Nat) (he : t.edge = .wrap) (hi : t.destination moves % t.cells.size = i) :
    Moved t moves { t with ptr := i }
  | grow (i last : Nat) (he : t.edge = .grow) (hi : t.destination moves = i)
    (hlast : IsGreatest (t.path moves) last) (hlimit : last < max t.cells.size growLimit) :
    Moved t moves { t.extended (last + 1) with ptr := i }

/-- The sum of the pointer and the next move is a word wherever the moves come to. -/
def MovesInWords (t : Tape) (moves : List Int) : Prop :=
  ∀ front d u, front ++ [d] <+: moves → forM front shift t = (.ok (), u) → IsWord (u.ptr + d)

variable {t u : Tape} {moves front : List Int} {d : Int}

theorem destination_nil (t : Tape) : t.destination [] = t.ptr := by simp [destination]

theorem destination_concat (t : Tape) (front : List Int) (d : Int) :
    t.destination (front ++ [d]) = t.destination front + d := by
  simp [destination, Int.add_assoc]

theorem path_nil (t : Tape) : t.path [] = {(t.ptr : Int)} := by
  ext i
  simp [path, destination_nil, eq_comm]

theorem path_concat (t : Tape) (front : List Int) (d : Int) :
    t.path (front ++ [d]) = insert (t.destination (front ++ [d])) (t.path front) := by
  ext i
  simp only [path, Set.mem_ofPred_eq, Set.mem_insert_iff, List.prefix_concat_iff]
  grind

theorem admits_ptr (hp : t.ptr < t.cells.size) : t.Admits t.ptr := by
  unfold Admits
  split
  · omega
  · trivial
  · omega

theorem moved_nil (hp : t.ptr < t.cells.size) : t.Moved [] t := by
  have hdest := t.destination_nil
  cases he : t.edge with
  | error => exact .error t.ptr he hdest
  | wrap => exact .wrap t.ptr he (by rw [hdest]; exact Int.emod_eq_of_lt (by omega) (by omega))
  | grow =>
    have hlast : IsGreatest (t.path []) (t.ptr : Nat) := by
      rw [path_nil]
      exact isGreatest_singleton
    have hm := Moved.grow t.ptr t.ptr he hdest hlast (by omega)
    rwa [extended_of_le hp] at hm

theorem Moved.goes (hp : t.ptr < t.cells.size) (hu : t.Moved front u)
    (ha : t.Admits (t.destination (front ++ [d]))) :
    ∃ u', shift d u = (.ok (), u') ∧ t.Moved (front ++ [d]) u' := by
  have hd := t.destination_concat front d
  cases hu with
  | error i he hi =>
    simp only [Admits, he] at ha
    obtain ⟨k, hk⟩ := Int.eq_ofNat_of_zero_le ha.1
    have hki : (i : Int) + d = k := by omega
    refine ⟨_, ?_, .error k he hk⟩
    rw [shift, hki]
    exact seek_of_lt (by dsimp only; omega)
  | wrap i he hi =>
    have hnonneg : 0 ≤ t.destination (front ++ [d]) % t.cells.size := Int.emod_nonneg _ (by omega)
    obtain ⟨k, hk⟩ := Int.eq_ofNat_of_zero_le hnonneg
    have hki : ((i : Int) + d) % t.cells.size = k := by rw [← hi, Int.emod_add_emod, ← hd, hk]
    refine ⟨_, ?_, .wrap k he hk⟩
    rw [shift, seek_wrap (t := { t with ptr := i }) he, hki, Int.toNat_natCast]
  | grow i last he hi hlast hlimit =>
    simp only [Admits, he] at ha
    obtain ⟨k, hk⟩ := Int.eq_ofNat_of_zero_le ha.1
    have hki : (i : Int) + d = k := by omega
    have hsize := t.size_extended (last + 1)
    have hlast' : IsGreatest (t.path (front ++ [d])) ((max k last : Nat) : Int) := by
      rw [path_concat, hk, Nat.cast_max]
      exact hlast.insert _
    refine ⟨_, ?_, .grow k (max k last) he hk hlast' (by omega)⟩
    rw [shift, hki, seek_grow (t := { t.extended (last + 1) with ptr := i }) he (by omega)
      (by dsimp only; omega), Int.toNat_natCast, ← Nat.add_max_add_right, ← extended_extended]
    rfl

/-- Only a ring reduces the sum of the pointer and a move, and it admits every index. -/
theorem Moved.ptr_add (hu : t.Moved front u) (ha : ¬ t.Admits (t.destination (front ++ [d]))) :
    u.ptr + d = t.destination (front ++ [d]) := by
  rw [destination_concat] at ha ⊢
  cases hu with
  | error i he hi => rw [hi]
  | wrap i he hi =>
    simp only [Admits, he] at ha
    contradiction
  | grow i last he hi hlast hlimit => rw [hi]

theorem Moved.refuses (hu : t.Moved front u) (ha : ¬ t.Admits (t.destination (front ++ [d]))) :
    ∃ index, shift d u = (.error (.pointerOutOfRange index u.cells.size), u) ∧
      (t.destination (front ++ [d]) < 2 ^ 63 → index = t.destination (front ++ [d])) := by
  rw [shift, hu.ptr_add ha]
  generalize t.destination (front ++ [d]) = target at ha
  cases hu with
  | error i he hi =>
    simp only [Admits, he] at ha
    exact ⟨_, (seek_error (t := { t with ptr := i }) he).trans (if_neg ha), fun _ => rfl⟩
  | wrap i he hi =>
    simp only [Admits, he] at ha
    contradiction
  | grow i last he hi hlast hlimit =>
    simp only [Admits, he] at ha
    have hsize := t.size_extended (last + 1)
    rcases Int.lt_or_le target 0 with hneg | hnonneg
    · exact ⟨_, seek_grow_negative (t := { t.extended (last + 1) with ptr := i }) he hneg,
        fun _ => rfl⟩
    · obtain ⟨k, rfl⟩ := Int.eq_ofNat_of_zero_le hnonneg
      exact ⟨_, seek_grow_limit (t := { t.extended (last + 1) with ptr := i }) he
        (by dsimp only; omega), fun hw => signedIndex_of_lt (by omega)⟩

theorem series_shift (hp : t.ptr < t.cells.size) :
    Series shift t (fun front => t.Admits (t.destination front)) t.Moved
      fun front u f => ∃ index, f = .pointerOutOfRange index u.cells.size ∧
        (t.destination front < 2 ^ 63 → index = t.destination front) where
  allowed_nil := by
    rw [destination_nil]
    exact admits_ptr hp
  reached_nil := moved_nil hp
  goes _ _ _ hu ha := hu.goes hp ha
  refuses _ _ _ hu ha := by
    obtain ⟨index, hs, hi⟩ := hu.refuses ha
    exact ⟨_, hs, index, rfl, hi⟩

theorem Moved.ptr_lt (hp : t.ptr < t.cells.size) (hu : t.Moved front u)
    (ha : t.Admits (t.destination front)) : u.ptr < max t.cells.size growLimit := by
  cases hu with
  | error i he hi =>
    simp only [Admits, he] at ha
    dsimp only
    omega
  | wrap i he hi =>
    have hlt := Int.emod_lt_of_pos (t.destination front) (b := t.cells.size) (by omega)
    dsimp only
    omega
  | grow i last he hi hlast hlimit =>
    simp only [Admits, he] at ha
    dsimp only
    omega

/-- Moves by at most `2 ^ 62` cells, on a tape that is never longer, form words. -/
theorem movesInWords_of_le (hp : t.ptr < t.cells.size)
    (hsize : max t.cells.size growLimit ≤ 2 ^ 62) (hd : ∀ d ∈ moves, -2 ^ 62 ≤ d ∧ d ≤ 2 ^ 62) :
    t.MovesInWords moves := by
  intro front d u hfront hrun
  have h := series_shift hp
  have hall := h.allowed_of_ok hrun
  obtain ⟨u', hrun', hu⟩ := h.reached front hall
  rw [hrun] at hrun'
  cases hrun'
  have hlt := hu.ptr_lt hp (hall front (List.prefix_refl front))
  have hbound := hd d (hfront.subset (by simp))
  rw [isWord_iff]
  omega

/-- Where moves form words, their sums tell whether all of them are made and where they lead. The
first move that is refused changes nothing, and its fault names the index that the tape does not
admit. -/
theorem forM_shift (hp : t.ptr < t.cells.size) (hw : t.MovesInWords moves) :
    ((forM moves shift t).1 = .ok () ↔
      ∀ front, front <+: moves → t.Admits (t.destination front)) ∧
    ((∀ front, front <+: moves → t.Admits (t.destination front)) →
      ∃ u, forM moves shift t = (.ok (), u) ∧ t.Moved moves u) ∧
    ∀ front d back, moves = front ++ d :: back →
      (∀ p, p <+: front → t.Admits (t.destination p)) →
      ¬ t.Admits (t.destination (front ++ [d])) →
      ∃ u, forM front shift t = (.ok (), u) ∧ t.Moved front u ∧
        IsWord (t.destination (front ++ [d])) ∧
        forM moves shift t =
          (.error (.pointerOutOfRange (t.destination (front ++ [d])) u.cells.size), u) := by
  have h := series_shift hp
  refine ⟨h.ok_iff, h.reached moves, ?_⟩
  rintro front d back rfl hall hd
  obtain ⟨u, f, hfront, hu, hmoves, index, rfl, hindex⟩ := h.refused hall hd back
  have hword := hw front d u (by simp) hfront
  rw [hu.ptr_add hd] at hword
  rw [hindex (isWord_iff.1 hword).2] at hmoves
  exact ⟨u, hfront, hu, hword, hmoves⟩

/-- A tape of three cells that may grow. -/
def growing : Tape := ofConfig { tapeSize := 3, edge := .grow }

/-- The path `0`, `4`, `2` makes the tape five cells long, and cannot go on to `-7`. -/
theorem forM_shift_growing :
    growing.ptr < growing.cells.size ∧ growing.MovesInWords [4, -2] ∧
    growing.MovesInWords [4, -2, -9] ∧ (forM [4, -2] shift growing).1 = .ok () ∧
    growing.Moved [4, -2] { growing.extended 5 with ptr := 2 } ∧
    ¬ growing.Admits (growing.destination [4, -2, -9]) ∧
    forM [4, -2, -9] shift growing =
      (.error (.pointerOutOfRange (-7) 5), { growing.extended 5 with ptr := 2 }) := by
  have hp : growing.ptr < growing.cells.size := by decide
  have hw : growing.MovesInWords [4, -2] := movesInWords_of_le hp (by decide) (by decide)
  have hw' : growing.MovesInWords [4, -2, -9] := movesInWords_of_le hp (by decide) (by decide)
  have hok : (forM [4, -2] shift growing).1 = .ok () := by decide
  have hno : ¬ growing.Admits (growing.destination [4, -2, -9]) := by decide
  have hall := (forM_shift hp hw).1.1 hok
  obtain ⟨u, hfront, hu, -, hmoves⟩ := (forM_shift hp hw').2.2 [4, -2] (-9) [] rfl hall hno
  obtain rfl : { growing.extended 5 with ptr := 2 } = u := congrArg Prod.snd hfront
  exact ⟨hp, hw, hw', hok, hu, hno, hmoves⟩

end TapeDialects.Tape
