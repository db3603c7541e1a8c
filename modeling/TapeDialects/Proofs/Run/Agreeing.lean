import TapeDialects.Dialect.Run
import TapeDialects.Proofs.Act.Agrees

/-!
# Runs that agree

The engine itself looks at the current instruction and at the counters, and a fault is located by
the pointers. Where these are the same in the image of a session (`Session.Indistinct`) and the
effects and hooks of a dialect agree with their images (`Dialect.Alike`), so does every part of a
run: a step, the steps of a program (`agrees_steps`) and the run (`agrees_runLoaded`).
-/

namespace TapeDialects

open Act

/-- The fault of an error of a run. -/
def Error.HasFault (E : Fault → Prop) : Error → Prop
  | .runtime f _ => E f
  | _ => False

/-- The engine and the location of a fault show no difference between a session and its image. -/
structure Session.Indistinct (g : Session → Session) : Prop where
  current : ∀ s, (g s).machine.current? = s.machine.current?
  ip : ∀ s, (g s).machine.ip = s.machine.ip
  steps : ∀ s, (g s).machine.steps = s.machine.steps
  ptr : ∀ s, (g s).machine.tape.ptr = s.machine.tape.ptr
  countStep : ∀ s, (g s).countStep = g s.countStep

variable {P : Session → Prop} {g : Session → Session} {E : Fault → Prop}

/-! ### Located actions -/

namespace Act

variable {α : Type} {x : Act Session α}

theorem agrees_locatedAt (hg : Session.Indistinct g) (hx : Agrees x P g E) (op : Opcode)
    (ip : Nat) : Agrees (locatedAt op ip x) P g (Error.HasFault E) := by
  intro s hs
  unfold locatedAt
  rcases hx s hs with ⟨f, s', hr, hE⟩ | ⟨r, s', hr, hs', hi⟩
  · rw [hr]
    exact .inl ⟨_, s', rfl, hE⟩
  · rw [hr, hi]
    cases r with
    | error f => exact .inr ⟨_, s', rfl, hs', by dsimp only; rw [hg.ptr]⟩
    | ok a => exact .inr ⟨_, s', rfl, hs', rfl⟩

theorem agrees_locatedOutside (hg : Session.Indistinct g) (hx : Agrees x P g E) :
    Agrees (locatedOutside x) P g (Error.HasFault E) := by
  intro s hs
  unfold locatedOutside
  rcases hx s hs with ⟨f, s', hr, hE⟩ | ⟨r, s', hr, hs', hi⟩
  · rw [hr]
    exact .inl ⟨_, s', rfl, hE⟩
  · rw [hr, hi]
    cases r with
    | error f => exact .inr ⟨_, s', rfl, hs', by dsimp only; rw [hg.ip, hg.ptr]⟩
    | ok a => exact .inr ⟨_, s', rfl, hs', rfl⟩

end Act

namespace Dialect

variable {d : Dialect}

/-- What the dialect puts into the engine agrees with its images. -/
structure Alike (d : Dialect) (P : Session → Prop) (g : Session → Session) (E : Fault → Prop) :
    Prop where
  effect : ∀ op, Agrees (d.effect op) P g E
  preRun : Agrees (d.runHook d.hooks.preRun) P g E
  step : Agrees (d.runHook d.hooks.step) P g E
  postRun : Agrees (d.runHook d.hooks.postRun) P g E
  flush : Agrees (onStream Stream.flush) P g E
  countStep : ∀ s, P s → P s.countStep

variable (hg : Session.Indistinct g) (hd : d.Alike P g E)

include hg hd

/-! ### Steps -/

theorem agrees_execute (op : Opcode) (ip : Nat) :
    Agrees (d.execute op ip) P g (Error.HasFault E) := by
  have hcount : Agrees (modify Session.countStep : RunM Unit) P g (Error.HasFault E) :=
    fun s hs => .inr ⟨_, _, rfl, hd.countStep s hs, congrArg (Prod.mk _) (hg.countStep s)⟩
  exact agrees_bind (agrees_locatedAt hg (hd.effect op) op ip) fun _ =>
    agrees_bind hcount fun _ => agrees_locatedAt hg hd.step op ip

theorem agrees_step : Agrees d.step P g (Error.HasFault E) := by
  intro s hs
  unfold step
  rw [hg.current]
  cases hi : s.machine.current? with
  | none => exact .inr ⟨_, s, rfl, hs, rfl⟩
  | some i =>
    dsimp only
    rw [hg.steps, hg.ip]
    cases hl : d.reachedLimit? s.machine.steps with
    | some limit => exact .inr ⟨_, s, rfl, hs, by rw [hg.ptr]⟩
    | none =>
      dsimp only
      rcases agrees_execute hg hd i.op s.machine.ip s hs with
        ⟨e, s', hr, hE⟩ | ⟨r, s', hr, hs', hx⟩
      · rw [hr]
        exact .inl ⟨e, s', rfl, hE⟩
      · rw [hr, hx]
        cases r <;> exact .inr ⟨_, s', rfl, hs', rfl⟩

theorem agrees_steps (n : Nat) {s : Session} (hs : P s) :
    (∃ e s', d.steps n s = (some (.error e), s') ∧ e.HasFault E) ∨
      ∃ r s', d.steps n s = (r, s') ∧ P s' ∧ d.steps n (g s) = (r, g s') := by
  induction n generalizing s with
  | zero => exact .inr ⟨none, s, rfl, hs, rfl⟩
  | succ n ih =>
    rw [steps, steps]
    rcases agrees_step hg hd s hs with ⟨e, s', hr, hE⟩ | ⟨r, s', hr, hs', hx⟩
    · rw [hr]
      exact .inl ⟨e, s', rfl, hE⟩
    · rw [hr, hx]
      rcases r with e | _ | _
      · exact .inr ⟨_, s', rfl, hs', rfl⟩
      · exact .inr ⟨_, s', rfl, hs', rfl⟩
      · exact ih hs'

/-! ### Runs -/

theorem agrees_begin : Agrees d.begin P g (Error.HasFault E) := agrees_locatedOutside hg hd.preRun

theorem agrees_finish : Agrees d.finish P g (Error.HasFault E) :=
  agrees_bind (agrees_locatedOutside hg hd.postRun) fun _ => agrees_locatedOutside hg hd.flush

theorem agrees_conclude (r : Option (Except Error Unit)) {s : Session} (hs : P s) :
    (∃ e s', d.conclude (r, s) = (some (.error e), s') ∧ e.HasFault E) ∨
      ∃ r' s', d.conclude (r, s) = (r', s') ∧ P s' ∧ d.conclude (r, g s) = (r', g s') := by
  rcases r with _ | e | u
  · exact .inr ⟨none, s, rfl, hs, rfl⟩
  · exact .inr ⟨_, s, rfl, hs, rfl⟩
  · rw [conclude, conclude]
    rcases agrees_finish hg hd s hs with ⟨e, s', hr, hE⟩ | ⟨r, s', hr, hs', hx⟩
    · rw [hr]
      exact .inl ⟨e, s', rfl, hE⟩
    · rw [hr, hx]
      cases r with
      | error e => exact .inr ⟨_, s', rfl, hs', rfl⟩
      | ok u => exact .inr ⟨_, s', rfl, hs', by dsimp only; rw [hg.steps]⟩

theorem agrees_runLoaded (n : Nat) {s : Session} (hs : P s) :
    (∃ e s', d.runLoaded n s = (some (.error e), s') ∧ e.HasFault E) ∨
      ∃ r s', d.runLoaded n s = (r, s') ∧ P s' ∧ d.runLoaded n (g s) = (r, g s') := by
  rw [runLoaded, runLoaded]
  rcases agrees_begin hg hd s hs with ⟨e, s₁, hr, hE⟩ | ⟨r, s₁, hr, hs₁, hx⟩
  · rw [hr]
    exact .inl ⟨e, s₁, rfl, hE⟩
  · rw [hr, hx]
    cases r with
    | error e => exact .inr ⟨_, s₁, rfl, hs₁, rfl⟩
    | ok u =>
      dsimp only
      rcases agrees_steps hg hd n hs₁ with ⟨e, s₂, hr, hE⟩ | ⟨r, s₂, hr, hs₂, hx⟩
      · rw [hr]
        exact .inl ⟨e, s₂, rfl, hE⟩
      · rw [hr, hx]
        exact agrees_conclude hg hd r hs₂

end Dialect

end TapeDialects
