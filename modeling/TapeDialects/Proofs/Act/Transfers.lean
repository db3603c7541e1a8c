import TapeDialects.Proofs.Act.Agrees

/-!
# Successes that transfer

`Act.Transfers x P g` says that the action `x` does the same in a state and in its image under `g`,
as far as it succeeds in the state itself: it then succeeds in the image with the same answer, and
the state reached there is the image of the state reached here. This is asked of the states with
`P`, which such an action has to keep. Nothing is said of faults: in the image the action may well
go on. So this is agreement up to any fault (`transfers_iff_agrees`), and has its rules.
-/

namespace TapeDialects.Act

variable {σ α β ε : Type} {P : σ → Prop} {g : σ → σ}

/-- Where the action succeeds in a state with `P`, the next state has `P`, and the action does the
same in the image of the state. -/
def Transfers (x : ExceptT ε (StateM σ) α) (P : σ → Prop) (g : σ → σ) : Prop :=
  ∀ s a s', P s → x s = (.ok a, s') → P s' ∧ x (g s) = (.ok a, g s')

theorem transfers_iff_agrees {x : ExceptT ε (StateM σ) α} :
    Transfers x P g ↔ Agrees x P g fun _ => True := by
  constructor
  · intro h s hs
    cases hx : x s with
    | mk r s' =>
      cases r with
      | error e => exact .inl ⟨e, s', rfl, trivial⟩
      | ok a =>
        obtain ⟨hs', hg⟩ := h s a s' hs hx
        exact .inr ⟨_, s', rfl, hs', hg⟩
  · intro h s a s' hs hx
    rcases h s hs with ⟨e, t, hr, -⟩ | ⟨r, t, hr, ht, hg⟩
    · cases hx.symm.trans hr
    · cases hx.symm.trans hr
      exact ⟨ht, hg⟩

theorem transfers_pure (a : α) : Transfers (pure a : Act σ α) P g :=
  transfers_iff_agrees.2 (agrees_pure a)

theorem transfers_fail (f : Fault) : Transfers (fail f : Act σ α) P g :=
  transfers_iff_agrees.2 (agrees_fail f)

theorem transfers_bind {x : ExceptT ε (StateM σ) α} {f : α → ExceptT ε (StateM σ) β}
    (hx : Transfers x P g) (hf : ∀ a, Transfers (f a) P g) : Transfers (x >>= f) P g :=
  transfers_iff_agrees.2
    (agrees_bind (transfers_iff_agrees.1 hx) fun a => transfers_iff_agrees.1 (hf a))

/-- An action that depends on a value of the state, if the value is that of the image too. -/
theorem transfers_of_value (x : β → Act σ α) (f : σ → β) (hf : ∀ s, f (g s) = f s)
    (hx : ∀ b, Transfers (x b) P g) : Transfers (fun s => x (f s) s) P g :=
  transfers_iff_agrees.2 (agrees_of_value x f hf fun b => transfers_iff_agrees.1 (hx b))

theorem transfers_ite {p : σ → Prop} [DecidablePred p] {x y : Act σ α} (hp : ∀ s, p (g s) ↔ p s)
    (hx : Transfers x P g) (hy : Transfers y P g) :
    Transfers (fun s => if p s then x s else y s) P g :=
  transfers_iff_agrees.2
    (agrees_ite hp (transfers_iff_agrees.1 hx) (transfers_iff_agrees.1 hy))

end TapeDialects.Act
