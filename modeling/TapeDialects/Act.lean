import TapeDialects.Fault

/-!
# Actions

An action changes a state and may stop with a fault. What it changed before the
fault stays changed: a write that fails halfway has written its first half.
-/

namespace TapeDialects

/-- Actions on a state that may stop with a fault and keep the state reached. -/
abbrev Act (σ : Type) := ExceptT Fault (StateM σ)

namespace Act

variable {σ α β : Type}

def fail (f : Fault) : Act σ α := fun s => (.error f, s)

theorem pure_apply (a : α) (s : σ) : (pure a : Act σ α) s = (.ok a, s) := rfl

theorem fail_apply (f : Fault) (s : σ) : (fail f : Act σ α) s = (.error f, s) := rfl

/-- A sequence, also one that stops with errors of another type. -/
theorem bind_apply {ε : Type} (x : ExceptT ε (StateM σ) α) (f : α → ExceptT ε (StateM σ) β)
    (s : σ) :
    (x >>= f) s =
      match x s with
      | (.ok a, s') => f a s'
      | (.error e, s') => (.error e, s') := by
  show (ExceptT.bind x f) s = _
  unfold ExceptT.bind ExceptT.mk
  show (StateT.bind x _) s = _
  unfold StateT.bind
  show (match x s with | (a, s') => ExceptT.bindCont f a s') = _
  rcases x s with ⟨r, s'⟩
  cases r <;> rfl

end Act

end TapeDialects
