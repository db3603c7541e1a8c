import TapeDialects.Dialect.Handler

/-!
# What actions keep

`Act.Keeps x P` says that a property of states survives the action `x`, whether `x` completes or
stops with a fault. A fault leaves what was done before it, so a sequence keeps a property only
if every part of it does.
-/

namespace TapeDialects.Act

variable {σ α β ε : Type} {P : σ → Prop}

theorem bind_eq_ok {x : ExceptT ε (StateM σ) α} {f : α → ExceptT ε (StateM σ) β}
    {s s'' : σ} {b : β} (h : (x >>= f) s = (.ok b, s'')) :
    ∃ a s', x s = (.ok a, s') ∧ f a s' = (.ok b, s'') := by
  rw [bind_apply] at h
  cases hr : x s with
  | mk r s' =>
    rw [hr] at h
    cases r with
    | error e => cases h
    | ok a => exact ⟨a, s', rfl, h⟩

def Keeps (x : ExceptT ε (StateM σ) α) (P : σ → Prop) : Prop := ∀ s, P s → P (x s).2

theorem Keeps.of_eq {x : ExceptT ε (StateM σ) α} (h : Keeps x P) {s s' : σ} {r : Except ε α}
    (hs : P s) (hr : x s = (r, s')) : P s' := by
  have := h s hs
  rwa [hr] at this

theorem keeps_pure (a : α) : Keeps (pure a : Act σ α) P := fun _ h => h

theorem keeps_fail (f : Fault) : Keeps (fail f : Act σ α) P := fun _ h => h

theorem keeps_bind {x : ExceptT ε (StateM σ) α} {f : α → ExceptT ε (StateM σ) β}
    (hx : Keeps x P) (hf : ∀ a, Keeps (f a) P) : Keeps (x >>= f) P := by
  intro s hs
  have hs' := hx s hs
  rw [bind_apply]
  cases hr : x s with
  | mk r s' =>
    rw [hr] at hs'
    cases r with
    | error e => exact hs'
    | ok a => exact hf a s' hs'

theorem keeps_forM {x : β → Act σ Unit} (hx : ∀ b, Keeps (x b) P) (items : List β) :
    Keeps (forM items x) P := by
  induction items with
  | nil => exact keeps_pure ()
  | cons b items ih =>
    rw [List.forM_cons]
    exact keeps_bind (hx b) fun _ => ih

theorem keeps_ite {p : σ → Prop} [DecidablePred p] {x y : Act σ α} (hx : Keeps x P)
    (hy : Keeps y P) : Keeps (fun s => if p s then x s else y s) P := by
  intro s hs
  dsimp only
  split
  · exact hx s hs
  · exact hy s hs

theorem keeps_onMachine {P : Machine → Prop} {x : Act Machine α} (h : Keeps x P) :
    Keeps (onMachine x) fun s => P s.machine :=
  fun s => h s.machine

theorem keeps_onStream {P : Machine → Prop} (x : Act Stream α) :
    Keeps (onStream x) fun s => P s.machine :=
  fun _ h => h

end TapeDialects.Act
