import TapeDialects.Dialect.Basic

/-!
# Handlers that a dialect uses

A statement about all dialects of a kind is about what their handlers and hooks can be:
`Dialect.Uses d kind` says that each of them is of the given kind. The kinds here are the handlers
of the library and, among those, the ones that look at no token and the ones that copy between
program and tape.
-/

namespace TapeDialects

namespace Handler

/-- The handlers of the library. The others are effects from outside. -/
def isLibrary : Handler → Bool
  | custom _ => false
  | _ => true

/-- The handlers of the library that look at no token. -/
def ignoresTokens : Handler → Bool
  | putToken | custom _ => false
  | _ => true

theorem isLibrary_of_ignoresTokens {h : Handler} (hh : h.ignoresTokens = true) :
    h.isLibrary = true := by
  cases h with
  | custom => contradiction
  | _ => rfl

/-- The handlers that copy the program to the tape. -/
def isSync : Handler → Bool
  | storeProgram | resync => true
  | _ => false

end Handler

namespace Dialect

structure Uses (d : Dialect) (kind : Handler → Bool) : Prop where
  handlers : ∀ op h, d.handler? op = some h → kind h = true
  preRun : ∀ h ∈ d.hooks.preRun, kind h = true
  step : ∀ h ∈ d.hooks.step, kind h = true
  postRun : ∀ h ∈ d.hooks.postRun, kind h = true

variable {d d' : Dialect} {kind kind' : Handler → Bool}

theorem Uses.mono (hu : d.Uses kind) (h : ∀ g, kind g = true → kind' g = true) : d.Uses kind' :=
  ⟨fun op g hg => h g (hu.handlers op g hg), fun g hg => h g (hu.preRun g hg),
    fun g hg => h g (hu.step g hg), fun g hg => h g (hu.postRun g hg)⟩

theorem Uses.of_eq (hu : d.Uses kind) (hh : d'.handlers = d.handlers) (hk : d'.hooks = d.hooks) :
    d'.Uses kind := by
  refine ⟨fun op g hg => hu.handlers op g ?_, hk ▸ hu.preRun, hk ▸ hu.step, hk ▸ hu.postRun⟩
  rwa [handler?, hh] at hg

theorem kind_of_handler? (h : (d.handlers.all fun b => kind b.2) = true) {op : Opcode}
    {g : Handler} (hg : d.handler? op = some g) : kind g = true := by
  obtain ⟨front, back, hl, _⟩ := List.lookup_eq_some_iff.1 hg
  have hm : (op, g) ∈ d.handlers := by simp [hl]
  exact List.all_eq_true.1 h _ hm

theorem uses_of_all (hh : (d.handlers.all fun b => kind b.2) = true)
    (hp : d.hooks.preRun.all kind = true) (hs : d.hooks.step.all kind = true)
    (he : d.hooks.postRun.all kind = true) : d.Uses kind := by
  have hook {o : Option Handler} (h : o.all kind = true) : ∀ g ∈ o, kind g = true := by
    rintro g rfl
    exact h
  exact ⟨fun _ _ => kind_of_handler? hh, hook hp, hook hs, hook he⟩

end Dialect

end TapeDialects
