import TapeDialects.Proofs.Machine.Jump
import TapeDialects.Proofs.Run.Structured

/-!
# Relocated programs

A program behind other instructions does what it does alone, if those in front are no brackets and
the dialect binds operations only. An instruction sees no more of the program than itself, the search
for a partner does not find one in front, and where it fails it fails with the same fault. So the
machine takes the same steps at higher addresses (`Dialect.step_behind`), and no hook runs between
them.
-/

namespace TapeDialects

open Act

variable {p q : Program} {depth i : Nat} {d : Dialect} {s : Session}

/-! ### The search for partners -/

namespace Program

def NoBrackets (q : Program) : Prop := ∀ x ∈ q, x.op.isBracket = false

theorem getElem?_behind (q p : Program) (i : Nat) : (q ++ p)[q.size + i]? = p[i]? := by
  rw [Array.getElem?_append_right (Nat.le_add_right _ _), Nat.add_sub_cancel_left]

theorem closerFrom?_behind (q p : Program) (depth i : Nat) :
    closerFrom? (q ++ p) depth (q.size + i) = (p.closerFrom? depth i).map (q.size + ·) := by
  have hat := getElem?_behind q p i
  fun_induction p.closerFrom? depth i with
  | case1 depth i hi hx ih =>
    rw [Array.getElem?_eq_getElem hi] at hat
    rw [closerFrom?_step hat, hx]
    exact ih (getElem?_behind q p _)
  | case2 i hi hx =>
    rw [Array.getElem?_eq_getElem hi] at hat
    rw [closerFrom?_step hat, hx]
    rfl
  | case3 i hi hx depth ih =>
    rw [Array.getElem?_eq_getElem hi] at hat
    rw [closerFrom?_step hat, hx]
    exact ih (getElem?_behind q p _)
  | case4 depth i hi ho hc ih =>
    rw [Array.getElem?_eq_getElem hi] at hat
    rw [closerFrom?_step hat]
    split
    · next h => exact absurd h ho
    · next h => exact absurd h hc
    · exact ih (getElem?_behind q p _)
  | case5 depth i hi =>
    have hend : ¬ q.size + i < (q ++ p).size := by
      rw [Array.size_append]
      omega
    rw [closerFrom?.eq_def, dif_neg hend]
    rfl

theorem openerBefore?_front (hq : q.NoBrackets) (p : Program) (depth : Nat) :
    ∀ i ≤ q.size, openerBefore? (q ++ p) depth i = none := by
  intro i hi
  induction i with
  | zero => rfl
  | succ i ih =>
    have hat : (q ++ p)[i]? = some q[i] := by
      rw [Array.getElem?_append_left hi, Array.getElem?_eq_getElem]
    rw [openerBefore?_plain hat (hq _ (Array.getElem_mem _)), ih (Nat.le_of_succ_le hi)]

theorem openerBefore?_behind (hq : q.NoBrackets) (p : Program) (depth i : Nat) (hi : i ≤ p.size) :
    openerBefore? (q ++ p) depth (q.size + i) = (p.openerBefore? depth i).map (q.size + ·) := by
  induction i generalizing depth with
  | zero => exact openerBefore?_front hq p depth q.size (Nat.le_refl _)
  | succ i ih =>
    have hx : p[i]? = some p[i] := Array.getElem?_eq_getElem hi
    have hat := (getElem?_behind q p i).trans hx
    rw [← Nat.add_assoc, openerBefore?_step hat, openerBefore?_step hx]
    split
    · exact ih (depth + 1) (Nat.le_of_succ_le hi)
    · cases depth with
      | zero => rfl
      | succ depth => exact ih depth (Nat.le_of_succ_le hi)
    · exact ih depth (Nat.le_of_succ_le hi)

end Program

/-! ### Sessions with instructions in front of the program -/

namespace Machine

/-- The machine with its program behind the instructions `q`, which it has executed. -/
def behind (q : Program) (m : Machine) : Machine :=
  ⟨m.tape, q ++ m.program, q.size + m.ip, q.size + m.steps⟩

theorem current?_behind (q : Program) (m : Machine) : (m.behind q).current? = m.current? :=
  Program.getElem?_behind q m.program m.ip

theorem jumpForward_behind (q : Program) (m : Machine) :
    jumpForward (m.behind q) = ((jumpForward m).1, (jumpForward m).2.behind q) := by
  have hpartner := Program.closerFrom?_behind q m.program 0 (m.ip + 1)
  unfold jumpForward
  cases hc : m.program.closerFrom? 0 (m.ip + 1) with
  | none =>
    rw [hc] at hpartner
    simp only [behind, Nat.add_assoc, hpartner, Option.map_none]
  | some j =>
    rw [hc] at hpartner
    simp only [behind, Nat.add_assoc, hpartner, Option.map_some]

theorem jumpBackward_behind (hq : q.NoBrackets) (m : Machine) :
    jumpBackward (m.behind q) = ((jumpBackward m).1, (jumpBackward m).2.behind q) := by
  have hpartner := Program.openerBefore?_behind hq m.program 0 (min m.ip m.program.size)
    (Nat.min_le_right _ _)
  rw [← Nat.add_min_add_left, ← Array.size_append] at hpartner
  unfold jumpBackward
  cases hc : m.program.openerBefore? 0 (min m.ip m.program.size) with
  | none =>
    rw [hc] at hpartner
    simp only [behind, hpartner, Option.map_none]
  | some j =>
    rw [hc] at hpartner
    simp only [behind, hpartner, Option.map_some]

end Machine

def Session.behind (q : Program) (s : Session) : Session := ⟨s.machine.behind q, s.stream⟩

/-- The error at an address that is higher by `n`. -/
def Error.behind (n : Nat) : Error → Error
  | .runtime f l => .runtime f { l with ip := n + l.ip }
  | e => e

theorem Act.Local.behind {α : Type} {x : Act Session α} (h : x.Local) (q : Program) (s : Session) :
    x (s.behind q) = ((x s).1, (x s).2.behind q) := by
  have hmoved := h s (s.behind q) (Machine.current?_behind q s.machine).symm
  have hstays : (x s).2 = s.withBench (x s).2.bench := congrArg Prod.snd (h.stays s)
  refine hmoved.trans ?_
  generalize (x s).2 = t at hstays
  rw [hstays]
  rfl

/-! ### Steps -/

namespace Dialect

def withoutHooks (d : Dialect) : Dialect := { d with hooks := {} }

theorem step_withoutHooks (h : d.hooks.step = none) : d.withoutHooks.step = d.step := by
  have hexecute : d.withoutHooks.execute = d.execute := by
    funext op ip
    rw [execute, execute, h]
    rfl
  funext s
  rw [step, step, hexecute]
  rfl

theorem steps_withoutHooks (h : d.hooks.step = none) (n : Nat) (s : Session) :
    d.withoutHooks.steps n s = d.steps n s := by
  induction n generalizing s with
  | zero => rfl
  | succ n ih =>
    rw [steps, steps, step_withoutHooks h]
    simp only [ih]

theorem effect_behind (hd : d.Structured) (hq : q.NoBrackets) (op : Opcode) (s : Session) :
    d.effect op (s.behind q) = ((d.effect op s).1, (d.effect op s).2.behind q) := by
  have hcell : (s.behind q).cell = s.cell := rfl
  cases ho : op.isBracket with
  | false => exact (local_effect hd.operations ho).behind q s
  | true =>
    rcases of_decide_eq_true ho with rfl | rfl
    · have hjump := Machine.jumpForward_behind q s.machine
      rw [hd.effect_opn, Session.openLoop, Session.openLoop, hcell]
      by_cases hz : s.cell = 0
      · rw [if_pos hz, if_pos hz, onMachine_apply, onMachine_apply, Session.behind, hjump]
        rfl
      · rw [if_neg hz, if_neg hz]
    · have hjump := Machine.jumpBackward_behind hq s.machine
      rw [hd.effect_cls, Session.closeLoop, Session.closeLoop, hcell]
      by_cases hz : s.cell = 0
      · rw [if_pos hz, if_pos hz]
      · rw [if_neg hz, if_neg hz, onMachine_apply, onMachine_apply, Session.behind, hjump]
        rfl

/-- A step behind the instructions `q` is the step without them. -/
theorem step_behind (hd : d.Structured) (hq : q.NoBrackets) (s : Session) :
    d.step (s.behind q) =
      ((d.step s).1.mapError (.behind q.size), (d.step s).2.behind q) := by
  have hcurrent := Machine.current?_behind q s.machine
  have hlimit (n : Nat) : d.reachedLimit? n = none := by
    rw [reachedLimit?, hd.noStepLimit, Option.filter_none]
  unfold step
  rw [Session.behind, hcurrent]
  cases s.machine.current? with
  | none => rfl
  | some x =>
    dsimp only
    rw [hlimit, hlimit, execute_apply, execute_apply, hd.noStepHook, ← Session.behind,
      effect_behind hd hq]
    rcases d.effect x.op s with ⟨_ | _, t⟩
    · rfl
    · rfl

theorem steps_behind (hd : d.Structured) (hq : q.NoBrackets) (n : Nat) (s : Session) :
    d.steps n (s.behind q) =
      ((d.steps n s).1.map (·.mapError (.behind q.size)), (d.steps n s).2.behind q) := by
  induction n generalizing s with
  | zero => rfl
  | succ n ih =>
    rw [steps, steps, step_behind hd hq]
    rcases d.step s with ⟨e | _ | _, t⟩
    · rfl
    · rfl
    · exact ih t

end Dialect

end TapeDialects
