import TapeDialects.Proofs.Act.Keeps
import TapeDialects.Proofs.Act.Raises

/-!
# Jumps

What the two jumps between brackets have in common: they move the instruction pointer to an
instruction of the program, or find no partner and leave the machine as it is (`Machine.Jumps`).
-/

namespace TapeDialects

open Act

namespace Program

theorem closerFrom?_lt {p : Program} {depth i j : Nat} (h : p.closerFrom? depth i = some j) :
    j < p.size := by
  fun_induction closerFrom? p depth i with
  | case1 depth i hi ho ih => exact ih h
  | case2 i hi hc => exact Option.some.inj h ▸ hi
  | case3 i hi hc depth ih => exact ih h
  | case4 depth i hi h1 h2 ih => exact ih h
  | case5 => contradiction

theorem openerBefore?_lt {p : Program} {depth i j : Nat} (h : p.openerBefore? depth i = some j) :
    j < i := by
  fun_induction openerBefore? p depth i with
  | case1 => contradiction
  | case2 depth i hc ih => exact Nat.lt_succ_of_lt (ih h)
  | case3 i ho => exact Option.some.inj h ▸ Nat.lt_succ_self i
  | case4 i ho depth ih => exact Nat.lt_succ_of_lt (ih h)
  | case5 depth i h1 h2 ih => exact Nat.lt_succ_of_lt (ih h)

end Program

namespace Machine

/-- The action moves the pointer to an instruction, or it is a fault that a bracket has no
partner. -/
def Jumps (x : Act Machine Unit) : Prop :=
  ∀ m, (∃ i < m.program.size, x m = (.ok (), { m with ip := i })) ∨
    ∃ direction, x m = (.error (.unmatchedBracket direction), m)

theorem jumps_jumpForward : Jumps jumpForward := by
  intro m
  unfold jumpForward
  split
  · next i hi => exact .inl ⟨i, Program.closerFrom?_lt hi, rfl⟩
  · exact .inr ⟨.forward, rfl⟩

theorem jumps_jumpBackward : Jumps jumpBackward := by
  intro m
  unfold jumpBackward
  split
  · next i hi =>
    have := Program.openerBefore?_lt hi
    exact .inl ⟨i, by omega, rfl⟩
  · exact .inr ⟨.backward, rfl⟩

variable {x : Act Machine Unit}

theorem Jumps.keeps (hx : Jumps x) {P : Machine → Prop}
    (hP : ∀ m i, i < m.program.size → P m → P { m with ip := i }) : Keeps x P := by
  intro m h
  rcases hx m with ⟨i, hi, he⟩ | ⟨_, he⟩
  · rw [he]
    exact hP m i hi h
  · rw [he]
    exact h

theorem Jumps.keeps_program (hx : Jumps x) (p : Program) : Keeps x fun m => m.program = p :=
  hx.keeps fun _ _ _ h => h

theorem Jumps.raises (hx : Jumps x) {P : Fault → Prop}
    (hP : ∀ direction, P (.unmatchedBracket direction)) : x.Raises P := by
  intro m f h
  rcases hx m with ⟨i, -, he⟩ | ⟨direction, he⟩
  · rw [he] at h
    contradiction
  · rw [he] at h
    cases h
    exact hP direction

end Machine

end TapeDialects
