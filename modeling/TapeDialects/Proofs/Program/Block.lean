import TapeDialects.Machine.Bracket
import TapeDialects.Proofs.Act.Local

/-!
# Blocks

A block is a well-nested stretch of a program: instructions that are no brackets, and loops
around further blocks. The search for the partner of a bracket passes over a block without a
trace, at whatever depth it is (`closerFrom?_block`, `openerBefore?_block`), so that the
brackets of a loop find each other wherever the loop stands in a program.
-/

namespace TapeDialects

/-- A well-nested stretch of a program. The brackets of a loop may carry literals, which nothing
reads. -/
inductive Block where
  | done
  | plain (i : Instruction) (h : i.op.isBracket = false) (rest : Block)
  | loop (opening closing : Option String) (body rest : Block)

namespace Block

def instructions : Block → List Instruction
  | done => []
  | plain i _ rest => i :: rest.instructions
  | loop opening closing body rest =>
    ⟨.opn, opening⟩ :: (body.instructions ++ ⟨.cls, closing⟩ :: rest.instructions)

def length (b : Block) : Nat := b.instructions.length

def program (b : Block) : Program := b.instructions.toArray

/-- One block after the other. -/
def append : Block → Block → Block
  | done, b => b
  | plain i h rest, b => plain i h (rest.append b)
  | loop l r body rest, b => loop l r body (rest.append b)

theorem instructions_append (a b : Block) :
    (a.append b).instructions = a.instructions ++ b.instructions := by
  induction a with
  | done => rfl
  | plain i h rest ih => simp only [append, instructions, ih, List.cons_append]
  | loop l r body rest _ ih =>
    simp only [append, instructions, ih, List.cons_append, List.append_assoc]

theorem length_append (a b : Block) : (a.append b).length = a.length + b.length := by
  rw [length, instructions_append, List.length_append]
  rfl

theorem length_plain (i : Instruction) (h : i.op.isBracket = false) (rest : Block) :
    (plain i h rest).length = rest.length + 1 := by
  simp only [length, instructions, List.length_cons]

theorem length_loop (l r : Option String) (body rest : Block) :
    (loop l r body rest).length = body.length + rest.length + 2 := by
  simp only [length, instructions, List.length_cons, List.length_append]
  omega

end Block

namespace Program

/-- The instructions stand in the program from index `i` on. -/
def Holds (p : Program) (i : Nat) (xs : List Instruction) : Prop :=
  ∀ j, j < xs.length → p[i + j]? = xs[j]?

theorem holds_toArray (xs : List Instruction) : Holds xs.toArray 0 xs := by
  intro j _
  simp

theorem holds_front (q p : Program) : Holds (q ++ p) 0 q.toList := by
  intro j hj
  rw [Nat.zero_add, Array.getElem?_append_left hj, Array.getElem?_toList]

namespace Holds

variable {p : Program} {i : Nat} {x : Instruction} {xs ys : List Instruction}

theorem head (h : p.Holds i (x :: xs)) : p[i]? = some x := by
  simpa using h 0 (by simp)

theorem tail (h : p.Holds i (x :: xs)) : p.Holds (i + 1) xs := by
  intro j hj
  have hx := h (j + 1) (by simpa using hj)
  rw [show i + 1 + j = i + (j + 1) by omega, hx, List.getElem?_cons_succ]

theorem left (h : p.Holds i (xs ++ ys)) : p.Holds i xs := by
  intro j hj
  rw [h j (by simp only [List.length_append]; omega), List.getElem?_append_left hj]

theorem right (h : p.Holds i (xs ++ ys)) : p.Holds (i + xs.length) ys := by
  intro j hj
  have hx := h (xs.length + j) (by simp only [List.length_append]; omega)
  rw [Nat.add_assoc, hx, List.getElem?_append_right (by omega), Nat.add_sub_cancel_left]

theorem nil (p : Program) (i : Nat) : p.Holds i [] := fun _ h => absurd h (Nat.not_lt_zero _)

theorem append (hx : p.Holds i xs) (hy : p.Holds (i + xs.length) ys) : p.Holds i (xs ++ ys) := by
  intro j hj
  rw [List.length_append] at hj
  rcases Nat.lt_or_ge j xs.length with h | h
  · rw [hx j h, List.getElem?_append_left h]
  · rw [List.getElem?_append_right h, ← hy (j - xs.length) (by omega)]
    congr 1
    omega

theorem cons (hx : p[i]? = some x) (h : p.Holds (i + 1) xs) : p.Holds i (x :: xs) := by
  have hone : p.Holds i [x] := by
    intro j hj
    obtain rfl : j = 0 := by simpa using hj
    exact hx
  exact hone.append h

end Holds

/-! ### Loops in a program -/

section Loop

variable {p : Program} {i : Nat} {l r : Option String} {body rest : Block}

theorem Holds.opening (h : p.Holds i (Block.loop l r body rest).instructions) :
    p[i]? = some ⟨.opn, l⟩ :=
  h.head

theorem Holds.inside (h : p.Holds i (Block.loop l r body rest).instructions) :
    p.Holds (i + 1) body.instructions :=
  h.tail.left

theorem Holds.closing (h : p.Holds i (Block.loop l r body rest).instructions) :
    p[i + 1 + body.length]? = some ⟨.cls, r⟩ :=
  h.tail.right.head

theorem Holds.behind (h : p.Holds i (Block.loop l r body rest).instructions) :
    p.Holds (i + 1 + body.length + 1) rest.instructions :=
  h.tail.right.tail

end Loop

/-! ### Partners of brackets -/

theorem closerFrom?_step {p : Program} {i : Nat} {x : Instruction} (h : p[i]? = some x)
    (depth : Nat) :
    p.closerFrom? depth i =
      match x.op with
      | .opn => p.closerFrom? (depth + 1) (i + 1)
      | .cls =>
        match depth with
        | 0 => some i
        | depth + 1 => p.closerFrom? depth (i + 1)
      | _ => p.closerFrom? depth (i + 1) := by
  obtain ⟨hi, hx⟩ := Array.getElem?_eq_some_iff.1 h
  have hu := closerFrom?.eq_def p depth i
  rw [dif_pos hi, hx] at hu
  exact hu

theorem closerFrom?_plain {p : Program} {i : Nat} {x : Instruction} (h : p[i]? = some x)
    (hx : x.op.isBracket = false) (depth : Nat) :
    p.closerFrom? depth i = p.closerFrom? depth (i + 1) := by
  rw [closerFrom?_step h]
  split
  · next ho => simp [ho, Opcode.isBracket] at hx
  · next hc => simp [hc, Opcode.isBracket] at hx
  · rfl

theorem closerFrom?_block {p : Program} {b : Block} {i : Nat}
    (h : p.Holds i b.instructions) (depth : Nat) :
    p.closerFrom? depth i = p.closerFrom? depth (i + b.length) := by
  induction b generalizing i depth with
  | done => rfl
  | plain x hx rest ih =>
    rw [closerFrom?_plain h.head hx, ih h.tail, Block.length_plain]
    congr 1
    omega
  | loop l r body rest ihb ihr =>
    -- The search is one loop deeper in the body, and the closing bracket takes it out again.
    rw [closerFrom?_step h.opening]
    dsimp only
    rw [ihb h.inside, closerFrom?_step h.closing]
    dsimp only
    rw [ihr h.behind, Block.length_loop]
    congr 1
    omega

theorem openerBefore?_step {p : Program} {i : Nat} {x : Instruction} (h : p[i]? = some x)
    (depth : Nat) :
    p.openerBefore? depth (i + 1) =
      match x.op with
      | .cls => p.openerBefore? (depth + 1) i
      | .opn =>
        match depth with
        | 0 => some i
        | depth + 1 => p.openerBefore? depth i
      | _ => p.openerBefore? depth i := by
  conv => lhs; rw [openerBefore?.eq_def]
  simp only [h, Option.map_some]
  obtain ⟨op, literal⟩ := x
  cases op <;> rfl

theorem openerBefore?_plain {p : Program} {i : Nat} {x : Instruction} (h : p[i]? = some x)
    (hx : x.op.isBracket = false) (depth : Nat) :
    p.openerBefore? depth (i + 1) = p.openerBefore? depth i := by
  rw [openerBefore?_step h]
  split
  · next hc => simp [hc, Opcode.isBracket] at hx
  · next ho => simp [ho, Opcode.isBracket] at hx
  · rfl

theorem openerBefore?_block {p : Program} {b : Block} {i : Nat}
    (h : p.Holds i b.instructions) (depth : Nat) :
    p.openerBefore? depth (i + b.length) = p.openerBefore? depth i := by
  induction b generalizing i depth with
  | done => rfl
  | plain x hx rest ih =>
    have hl : i + (Block.plain x hx rest).length = i + 1 + rest.length := by
      rw [Block.length_plain]
      omega
    rw [hl, ih h.tail, openerBefore?_plain h.head hx]
  | loop l r body rest ihb ihr =>
    have hl : i + (Block.loop l r body rest).length = i + 1 + body.length + 1 + rest.length := by
      rw [Block.length_loop]
      omega
    rw [hl, ihr h.behind, openerBefore?_step h.closing]
    dsimp only
    rw [ihb h.inside, openerBefore?_step h.opening]

section Loop

variable {p : Program} {i : Nat} {l r : Option String} {body rest : Block}

theorem closerFrom?_loop (h : p.Holds i (Block.loop l r body rest).instructions) :
    p.closerFrom? 0 (i + 1) = some (i + 1 + body.length) := by
  rw [closerFrom?_block h.inside, closerFrom?_step h.closing]

theorem openerBefore?_loop (h : p.Holds i (Block.loop l r body rest).instructions) :
    p.openerBefore? 0 (i + 1 + body.length) = some i := by
  rw [openerBefore?_block h.inside, openerBefore?_step h.opening]

end Loop

end Program

end TapeDialects
