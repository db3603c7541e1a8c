import TapeDialects.Proofs.Act.Keeps

/-!
# Actions that agree

`Act.Agrees x P g E` says that the action `x` does the same in a state and in its image under `g`:
it answers the same, be it an error, and the state reached there is the image of the state reached
here. This is asked of the states with `P`, which the action has to keep, and only as far as `x` does
not stop with an error of `E`. Where it does, nothing is said of the image.
-/

namespace TapeDialects.Act

variable {σ α β ε : Type} {P : σ → Prop} {g : σ → σ} {E : ε → Prop}

def Agrees (x : ExceptT ε (StateM σ) α) (P : σ → Prop) (g : σ → σ) (E : ε → Prop) : Prop :=
  ∀ s, P s →
    (∃ e s', x s = (.error e, s') ∧ E e) ∨ ∃ r s', x s = (r, s') ∧ P s' ∧ x (g s) = (r, g s')

theorem agrees_pure (a : α) : Agrees (pure a : ExceptT ε (StateM σ) α) P g E :=
  fun _ hs => .inr ⟨_, _, rfl, hs, rfl⟩

theorem agrees_fail {E : Fault → Prop} (f : Fault) : Agrees (fail f : Act σ α) P g E :=
  fun _ hs => .inr ⟨_, _, rfl, hs, rfl⟩

theorem agrees_bind {x : ExceptT ε (StateM σ) α} {f : α → ExceptT ε (StateM σ) β}
    (hx : Agrees x P g E) (hf : ∀ a, Agrees (f a) P g E) : Agrees (x >>= f) P g E := by
  intro s hs
  rw [bind_apply, bind_apply]
  rcases hx s hs with ⟨e, s', hr, hE⟩ | ⟨r, s', hr, hs', hg⟩
  · rw [hr]
    exact .inl ⟨e, s', rfl, hE⟩
  · rw [hr, hg]
    cases r with
    | error e => exact .inr ⟨_, s', rfl, hs', rfl⟩
    | ok a => exact hf a s' hs'

/-- An action that depends on a value of the state, if the value is that of the image too. -/
theorem agrees_of_value (x : β → ExceptT ε (StateM σ) α) (f : σ → β) (hf : ∀ s, f (g s) = f s)
    (hx : ∀ b, Agrees (x b) P g E) : Agrees (fun s => x (f s) s) P g E := by
  intro s hs
  dsimp only
  rw [hf]
  exact hx (f s) s hs

theorem agrees_ite {p : σ → Prop} [DecidablePred p] {x y : ExceptT ε (StateM σ) α}
    (hp : ∀ s, p (g s) ↔ p s) (hx : Agrees x P g E) (hy : Agrees y P g E) :
    Agrees (fun s => if p s then x s else y s) P g E := by
  intro s hs
  dsimp only
  by_cases hps : p s
  · rw [if_pos hps, if_pos ((hp s).2 hps)]
    exact hx s hs
  · rw [if_neg hps, if_neg fun hg => hps ((hp s).1 hg)]
    exact hy s hs

end TapeDialects.Act
