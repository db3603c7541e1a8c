import Mathlib.Data.List.Induction
import TapeDialects.Proofs.Act.Keeps

/-!
# Series of actions

One action for each item of a list, one after another, up to the first fault. Often the items up to
its own decide whether an action goes on, and a refusal changes nothing (`Act.Series`). Such a
series completes exactly if every front of its list is allowed, and otherwise it stops at the first
front that is not, in the state that the items before it have left.
-/

namespace TapeDialects.Act

variable {σ α : Type} {x : α → Act σ Unit} {s u : σ} {items front : List α}

/-- From the state `s` on, the items up to its own decide whether an action goes on. `Reached` says
what is known of the state behind the items of a front, and `Refused` of the fault that ends a front
that is not allowed. -/
structure Series (x : α → Act σ Unit) (s : σ) (Allowed : List α → Prop)
    (Reached : List α → σ → Prop) (Refused : List α → σ → Fault → Prop) : Prop where
  allowed_nil : Allowed []
  reached_nil : Reached [] s
  goes : ∀ front a u, Reached front u → Allowed (front ++ [a]) →
    ∃ u', x a u = (.ok (), u') ∧ Reached (front ++ [a]) u'
  refuses : ∀ front a u, Reached front u → ¬ Allowed (front ++ [a]) →
    ∃ f, x a u = (.error f, u) ∧ Refused (front ++ [a]) u f

namespace Series

variable {Allowed : List α → Prop} {Reached : List α → σ → Prop}
  {Refused : List α → σ → Fault → Prop}

variable (h : Series x s Allowed Reached Refused)
include h

theorem reached (items : List α) (hall : ∀ front, front <+: items → Allowed front) :
    ∃ u, forM items x s = (.ok (), u) ∧ Reached items u := by
  induction items using List.reverseRecOn with
  | nil => exact ⟨s, rfl, h.reached_nil⟩
  | append_singleton front a ih =>
    obtain ⟨u, hu, hr⟩ := ih fun p hp => hall p (hp.trans (List.prefix_append front [a]))
    obtain ⟨u', ha, hr'⟩ := h.goes front a u hr (hall _ (List.prefix_refl _))
    refine ⟨u', ?_, hr'⟩
    rw [List.forM_append, bind_apply, hu]
    dsimp only
    rw [List.forM_cons, bind_apply, ha]
    rfl

theorem refused {a : α} (hall : ∀ p, p <+: front → Allowed p) (ha : ¬ Allowed (front ++ [a]))
    (back : List α) :
    ∃ u f, forM front x s = (.ok (), u) ∧ Reached front u ∧
      forM (front ++ a :: back) x s = (.error f, u) ∧ Refused (front ++ [a]) u f := by
  obtain ⟨u, hu, hr⟩ := h.reached front hall
  obtain ⟨f, hf, hw⟩ := h.refuses front a u hr ha
  refine ⟨u, f, hu, hr, ?_, hw⟩
  rw [List.forM_append, bind_apply, hu]
  dsimp only
  rw [List.forM_cons, bind_apply, hf]

theorem allowed_of_ok (hok : forM items x s = (.ok (), u)) :
    ∀ front, front <+: items → Allowed front := by
  induction items using List.reverseRecOn generalizing u with
  | nil =>
    intro front hfront
    rw [List.prefix_nil.1 hfront]
    exact h.allowed_nil
  | append_singleton init a ih =>
    rw [List.forM_append] at hok
    obtain ⟨_, v, hv, hlast⟩ := bind_eq_ok hok
    have hinit := ih hv
    intro front hfront
    rcases List.prefix_concat_iff.1 hfront with rfl | hfront
    · by_contra hn
      obtain ⟨w, f, _, _, hf, _⟩ := h.refused hinit hn []
      rw [List.forM_append] at hf
      rw [hf] at hok
      cases hok
    · exact hinit front hfront

theorem ok_iff : (forM items x s).1 = .ok () ↔ ∀ front, front <+: items → Allowed front := by
  constructor
  · intro hok
    exact h.allowed_of_ok (u := (forM items x s).2) (Prod.ext hok rfl)
  · intro hall
    obtain ⟨u, hu, _⟩ := h.reached items hall
    rw [hu]

end Series

end TapeDialects.Act
