import TapeDialects.Proofs.Act.Keeps
import TapeDialects.Proofs.Act.Raises
import TapeDialects.Proofs.Run.Halting

/-!
# Where runs lead

Rules for the parts of a run. `Act.Leads x P R Q` says that from a state with `P` the action `x`
completes in a state with `R`, or stops with an error and in a state of which `Q` holds. There is
one rule for each part of the engine: sequences, located actions, an instruction with its hook, a
step, and then the steps of a program (`leads_steps`) and a whole run (`leads_runLoaded`), through
which an invariant of single steps is carried.
-/

namespace TapeDialects

namespace Act

variable {σ α β ε : Type} {P P' R R' : σ → Prop} {Q Q' : ε → σ → Prop}

/-- The action has completed in a state with `R`, or stopped with an error and a state with `Q`. -/
def Ends (r : Except ε α × σ) (R : σ → Prop) (Q : ε → σ → Prop) : Prop :=
  match r with
  | (.ok _, s) => R s
  | (.error e, s) => Q e s

def Leads (x : ExceptT ε (StateM σ) α) (P R : σ → Prop) (Q : ε → σ → Prop) : Prop :=
  ∀ s, P s → Ends (x s) R Q

theorem Ends.imp {r : Except ε α × σ} (h : Ends r R Q) (hR : ∀ s, R s → R' s)
    (hQ : ∀ e s, Q e s → Q' e s) : Ends r R' Q' := by
  rcases r with ⟨_ | _, s⟩
  · exact hQ _ s h
  · exact hR s h

theorem ends_iff_of_const {r : Except ε α × σ} : Ends r P (fun _ => P) ↔ P r.2 := by
  rcases r with ⟨_ | _, s⟩ <;> exact Iff.rfl

theorem leads_bind {x : ExceptT ε (StateM σ) α} {f : α → ExceptT ε (StateM σ) β}
    (hx : Leads x P R Q) (hf : ∀ a, Leads (f a) R R' Q) : Leads (x >>= f) P R' Q := by
  intro s hs
  have h := hx s hs
  rw [bind_apply]
  cases hr : x s with
  | mk r s' =>
    rw [hr] at h
    cases r with
    | error e => exact h
    | ok a => exact hf a s' h

theorem leads_iff_keeps {x : ExceptT ε (StateM σ) α} : Leads x P P (fun _ => P) ↔ Keeps x P :=
  forall_congr' fun _ => imp_congr_right fun _ => ends_iff_of_const

theorem leads_ite {p : σ → Prop} [DecidablePred p] {x y : Act σ α} {Q : Fault → σ → Prop}
    (hx : Leads x P R Q) (hy : Leads y P R Q) :
    Leads (fun s => if p s then x s else y s) P R Q := by
  intro s hs
  dsimp only
  split
  · exact hx s hs
  · exact hy s hs

theorem leads_of_keeps {x : Act σ α} {F : Fault → Prop} (hk : Keeps x P) (hr : x.Raises F) :
    Leads x P P fun f _ => F f := by
  intro s hs
  have hk := hk s hs
  have hr := hr s
  cases hx : x s with
  | mk r s' =>
    rw [hx] at hk hr
    cases r with
    | error f => exact hr f rfl
    | ok a => exact hk

theorem leads_onMachine {P R : Machine → Prop} {Q : Fault → Machine → Prop} {x : Act Machine α}
    (hx : Leads x P R Q) :
    Leads (onMachine x) (fun s => P s.machine) (fun s => R s.machine) fun f s => Q f s.machine := by
  intro s hs
  have h := hx s.machine hs
  rw [onMachine_apply]
  cases hr : x s.machine with
  | mk r m =>
    rw [hr] at h
    cases r <;> exact h

theorem leads_locatedAt {α : Type} {P R : Session → Prop} {Q : Error → Session → Prop}
    {x : Act Session α} {op : Opcode} {ip : Nat}
    (hx : Leads x P R fun f s => Q (.runtime f ⟨some op, ip, s.machine.tape.ptr⟩) s) :
    Leads (locatedAt op ip x) P R Q := by
  intro s hs
  have h := hx s hs
  unfold locatedAt
  cases hr : x s with
  | mk r s' =>
    rw [hr] at h
    cases r <;> exact h

theorem leads_locatedOutside {α : Type} {P R : Session → Prop} {Q : Error → Session → Prop}
    {x : Act Session α}
    (hx : Leads x P R fun f s => Q (.runtime f ⟨none, s.machine.ip, s.machine.tape.ptr⟩) s) :
    Leads (locatedOutside x) P R Q := by
  intro s hs
  have h := hx s hs
  unfold locatedOutside
  cases hr : x s with
  | mk r s' =>
    rw [hr] at h
    cases r <;> exact h

theorem keeps_locatedOutside {α : Type} {P : Session → Prop} {x : Act Session α}
    (hx : Keeps x P) : Keeps (locatedOutside x) P :=
  leads_iff_keeps.1 (leads_locatedOutside (leads_iff_keeps.2 hx))

end Act

open Act

namespace Dialect

variable {d : Dialect} {P P₁ P₂ R : Session → Prop} {Q : Error → Session → Prop} {s : Session}

theorem leads_execute {op : Opcode} {ip : Nat}
    (heffect : Leads (d.effect op) P P₁ fun f s =>
      Q (.runtime f ⟨some op, ip, s.machine.tape.ptr⟩) s)
    (hcount : ∀ s, P₁ s → P₂ s.countStep)
    (hhook : Leads (d.runHook d.hooks.step) P₂ R fun f s =>
      Q (.runtime f ⟨some op, ip, s.machine.tape.ptr⟩) s) :
    Leads (d.execute op ip) P R Q :=
  leads_bind (leads_locatedAt heffect) fun _ =>
    leads_bind (R := P₂) hcount fun _ => leads_locatedAt hhook

theorem leads_step
    (hlimit : ∀ s i limit, P s → d.reachedLimit? s.machine.steps = some limit →
      Q (.runtime (.stepLimit limit) ⟨some i, s.machine.ip, s.machine.tape.ptr⟩) s)
    (hexecute : ∀ s i, P s → s.machine.current? = some i →
      Ends (d.execute i.op s.machine.ip s) P Q) :
    Leads d.step P P Q := by
  intro s hs
  unfold step
  cases hi : s.machine.current? with
  | none => exact hs
  | some i =>
    dsimp only
    cases hl : d.reachedLimit? s.machine.steps with
    | some limit => exact hlimit s i.op limit hs hl
    | none =>
      have h := hexecute s i hs hi
      dsimp only
      cases hr : d.execute i.op s.machine.ip s with
      | mk r s' =>
        rw [hr] at h
        cases r <;> exact h

/-- What every step preserves holds as long as the steps go on, and of what they come to. -/
theorem leads_steps (hstep : Leads d.step P P Q) (n : Nat) (h : P s) :
    match d.steps n s with
    | (none, s') => P s'
    | (some r, s') => Ends (r, s') P Q := by
  induction n generalizing s with
  | zero => exact h
  | succ n ih =>
    have hs := hstep s h
    rw [steps]
    cases hr : d.step s with
    | mk r s' =>
      rw [hr] at hs
      rcases r with e | _ | _
      · exact hs
      · exact hs
      · exact ih hs

theorem leads_runLoaded {P₀ : Session → Prop} (hbegin : Leads d.begin P₀ P Q)
    (hstep : Leads d.step P P Q) (hfinish : Leads d.finish P R Q) (n : Nat) (h : P₀ s) :
    match d.runLoaded n s with
    | (none, s') => P s'
    | (some r, s') => Ends (r, s') R Q := by
  have hb := hbegin s h
  rw [runLoaded]
  cases hr : d.begin s with
  | mk r s₁ =>
    rw [hr] at hb
    rcases r with e | u
    · exact hb
    · have hn := leads_steps hstep n hb
      dsimp only
      cases hr' : d.steps n s₁ with
      | mk r s₂ =>
        rw [hr'] at hn
        rcases r with _ | e | u
        · exact hn
        · exact hn
        · have hf := hfinish s₂ hn
          rw [conclude]
          cases hr'' : d.finish s₂ with
          | mk r s₃ =>
            rw [hr''] at hf
            cases r <;> exact hf

theorem keeps_runLoaded (hbegin : Keeps d.begin P) (hstep : Keeps d.step P)
    (hfinish : Keeps d.finish P) (n : Nat) (h : P s) : P (d.runLoaded n s).2 := by
  have hr := leads_runLoaded (leads_iff_keeps.2 hbegin) (leads_iff_keeps.2 hstep)
    (leads_iff_keeps.2 hfinish) n h
  cases hx : d.runLoaded n s with
  | mk r s' =>
    rw [hx] at hr
    cases r with
    | none => exact hr
    | some r => exact ends_iff_of_const.1 hr

end Dialect

end TapeDialects
