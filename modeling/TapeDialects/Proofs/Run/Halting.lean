import TapeDialects.Dialect.Run

/-!
# Halting

A session halts with an answer if some number of steps gives that answer. It does so with one
answer at most (`halts_unique`), and taking a step changes neither whether it halts nor how: the
session before and the session behind have the same end. Sessions with the same end are what a
simulation relates.
-/

namespace TapeDialects

theorem Act.locatedOutside_ok {α : Type} {x : Act Session α} {s s' : Session} {a : α}
    (h : x s = (.ok a, s')) : locatedOutside x s = (.ok a, s') := by
  unfold locatedOutside
  rw [h]

namespace Dialect

/-- Executing the program from session `s` on comes to an end with answer `e` in session `t`. -/
def Halts (d : Dialect) (s : Session) (e : Except Error Unit) (t : Session) : Prop :=
  ∃ n, d.steps n s = (some e, t)

def SameEnd (d : Dialect) (s s' : Session) : Prop :=
  ∀ e t, d.Halts s e t ↔ d.Halts s' e t

variable {d : Dialect} {s s' s'' t t' : Session} {e e' : Except Error Unit}

theorem halts_unique (h : d.Halts s e t) (h' : d.Halts s e' t') : e = e' ∧ t = t' := by
  obtain ⟨m, hm⟩ := h
  obtain ⟨n, hn⟩ := h'
  have hm' := steps_mono hm (Nat.le_max_left m n)
  have hn' := steps_mono hn (Nat.le_max_right m n)
  rw [hm'] at hn'
  simpa using hn'

theorem forall_not_halts_iff : (∀ e t, ¬ d.Halts s e t) ↔ ∀ n, (d.steps n s).1 = none := by
  constructor
  · intro h n
    cases hn : d.steps n s with
    | mk r t =>
      cases r with
      | none => rfl
      | some e => exact absurd ⟨n, hn⟩ (h e t)
  · rintro h e t ⟨n, hn⟩
    have := h n
    rw [hn] at this
    contradiction

/-! ### Some steps -/

theorem steps_add {n : Nat} (h : d.steps n s = (none, s')) (k : Nat) :
    d.steps (n + k) s = d.steps k s' := by
  induction n generalizing s with
  | zero =>
    cases h
    rw [Nat.zero_add]
  | succ n ih =>
    rw [Nat.succ_add, steps]
    rw [steps] at h
    split at h
    · cases h
    · cases h
    · exact ih h

theorem halts_of_step_error {x : Error} (h : d.step s = (.error x, t)) :
    d.Halts s (.error x) t :=
  ⟨1, by simp only [steps, h]⟩

theorem halts_of_step_false (h : d.step s = (.ok false, t)) : d.Halts s (.ok ()) t :=
  ⟨1, by simp only [steps, h]⟩

/-- Sessions whose first steps agree have the same end, whatever stands at them. -/
theorem sameEnd_of_step_eq (h : d.step s = d.step s') : d.SameEnd s s' := by
  intro e t
  constructor
  · rintro ⟨n, hn⟩
    cases n with
    | zero => simp [steps] at hn
    | succ n => exact ⟨n + 1, by rw [← hn, steps, steps, h]⟩
  · rintro ⟨n, hn⟩
    cases n with
    | zero => simp [steps] at hn
    | succ n => exact ⟨n + 1, by rw [← hn, steps, steps, h]⟩

theorem sameEnd_of_step (h : d.step s = (.ok true, s')) : d.SameEnd s s' := by
  intro e t
  constructor
  · rintro ⟨n, hn⟩
    cases n with
    | zero => simp [steps] at hn
    | succ n => exact ⟨n, by simpa only [steps, h] using hn⟩
  · rintro ⟨n, hn⟩
    exact ⟨n + 1, by simpa only [steps, h] using hn⟩

/-! ### The same end -/

theorem SameEnd.refl (s : Session) : d.SameEnd s s := fun _ _ => Iff.rfl

theorem SameEnd.trans (h : d.SameEnd s s') (h' : d.SameEnd s' s'') : d.SameEnd s s'' :=
  fun e t => (h e t).trans (h' e t)

/-! ### The step of a dialect -/

theorem execute_apply (d : Dialect) (op : Opcode) (ip : Nat) (s : Session) :
    d.execute op ip s =
      match d.effect op s with
      | (.error f, s) => (.error (.runtime f ⟨some op, ip, s.machine.tape.ptr⟩), s)
      | (.ok (), s) =>
        match d.runHook d.hooks.step s.countStep with
        | (.error f, s) => (.error (.runtime f ⟨some op, ip, s.machine.tape.ptr⟩), s)
        | (.ok (), s) => (.ok (), s) := by
  rw [execute, Act.bind_apply, Act.locatedAt]
  rcases d.effect op s with ⟨r, s₁⟩
  cases r with
  | error f => rfl
  | ok u =>
    show Act.locatedAt op ip (d.runHook d.hooks.step) s₁.countStep = _
    unfold Act.locatedAt
    rcases hr : d.runHook d.hooks.step s₁.countStep with ⟨r, s₂⟩
    cases r <;> simp only [hr]

end Dialect

end TapeDialects
