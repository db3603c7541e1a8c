import TapeDialects.Proofs.Dialect.Uses
import TapeDialects.Proofs.Machine.Copies
import TapeDialects.Proofs.Run.Halting

/-!
# Engines

What the engine sees of a dialect: the effects of its opcodes, its hooks and the limit of steps.
Dialects that agree in this take the same steps (`SameEngine.steps_eq`), whatever their tokens,
names and policies. The handlers of the library consult the signedness of cells, the mode of the
output and the order of the opcodes, and one of them the tokens (`Handler.run_congr`).
-/

namespace TapeDialects

/-- The settings agree in all that the handlers of the library consult but the tokens. -/
structure Setting.SameCode (d d' : Setting) : Prop where
  signedCell : d.config.signedCell = d'.config.signedCell
  output : d.config.output = d'.config.output
  opcodes : d.table.opcodes = d'.table.opcodes

theorem Handler.run_congr {h : Handler} (hl : h.isLibrary = true) {d d' : Setting}
    (hd : d.SameCode d')
    (ht : h.ignoresTokens = true ∨ d.table = d'.table ∧ d.surface = d'.surface) :
    h.run d = h.run d' := by
  cases h with
  | custom => contradiction
  | putToken =>
    rcases ht with ht | ⟨ht, hs⟩
    · contradiction
    · simp only [run, ht, hs]
  | not => simp only [run, hd.signedCell]
  | putAdvance | getAdvance | drain => simp only [run, hd.output]
  | storeProgram => simp only [run, Machine.storeProgram_congr hd.opcodes]
  | resync => simp only [run, Machine.resync_congr hd.opcodes]
  | _ => rfl

namespace Dialect

variable {d d' : Dialect}

/-- The effects of the opcodes and the hooks are the same. -/
structure SameEngine (d d' : Dialect) : Prop where
  effect : d.effect = d'.effect
  preRun : d.runHook d.hooks.preRun = d'.runHook d'.hooks.preRun
  step : d.runHook d.hooks.step = d'.runHook d'.hooks.step
  postRun : d.runHook d.hooks.postRun = d'.runHook d'.hooks.postRun

theorem sameEngine_of_uses {kind : Handler → Bool} (hu : d.Uses kind)
    (hr : ∀ h, kind h = true → h.run d.toSetting = h.run d'.toSetting)
    (ho : d.config.output = d'.config.output) (hh : d'.handlers = d.handlers)
    (hk : d'.hooks = d.hooks) : d.SameEngine d' := by
  have hook {o : Option Handler} (hs : ∀ g ∈ o, kind g = true) : d.runHook o = d'.runHook o := by
    cases o with
    | none => rfl
    | some g => exact hr g (hs g rfl)
  refine ⟨?_, by rw [hk, hook hu.preRun], by rw [hk, hook hu.step], by rw [hk, hook hu.postRun]⟩
  funext op
  have hh' : d'.handler? op = d.handler? op := by rw [handler?, handler?, hh]
  rw [effect, effect, hh', ho]
  split
  · next g hg => exact hr g (hu.handlers op g hg)
  · rfl

namespace SameEngine

variable (h : d.SameEngine d')

include h

theorem begin_eq : d.begin = d'.begin := by rw [begin, begin, h.preRun]

theorem finish_eq : d.finish = d'.finish := by rw [finish, finish, h.postRun]

theorem conclude_eq : d.conclude = d'.conclude := by
  funext r
  rcases r with ⟨_ | _ | _, s⟩
  · rfl
  · rfl
  · rw [conclude, conclude, h.finish_eq]

theorem execute_eq : d.execute = d'.execute := by
  funext op ip
  rw [execute, execute, h.effect, h.step]

theorem step_eq_of_reachedLimit? {s : Session}
    (hl : d.reachedLimit? s.machine.steps = d'.reachedLimit? s.machine.steps) :
    d.step s = d'.step s := by
  rw [Dialect.step, Dialect.step, h.execute_eq, hl]

variable (hl : d.config.stepLimit = d'.config.stepLimit)

include hl

theorem step_eq : d.step = d'.step := by
  funext s
  exact h.step_eq_of_reachedLimit? (by rw [reachedLimit?, reachedLimit?, hl])

theorem steps_eq (n : Nat) (s : Session) : d.steps n s = d'.steps n s := by
  induction n generalizing s with
  | zero => rfl
  | succ n ih =>
    rw [steps, steps, h.step_eq hl]
    simp only [ih]

theorem runLoaded_eq (n : Nat) (s : Session) : d.runLoaded n s = d'.runLoaded n s := by
  rw [runLoaded, runLoaded, h.begin_eq, h.conclude_eq]
  simp only [h.steps_eq hl]

end SameEngine

end Dialect

end TapeDialects
