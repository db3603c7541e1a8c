import TapeDialects.Proofs.Run.Relaxed
import TapeDialects.Proofs.Run.Stable

/-!
# Limited runs

A limit on the steps cuts a run short and does nothing else. No handler of the library touches
the counter of steps, so behind `n` steps it says `n`, and as long as it is below the limit a
limited dialect takes the steps of an unlimited one. At the limit a program that has ended still
ends well; any other stops there, in the state that the unlimited run passes through.
-/

namespace TapeDialects

open Act

/-! ### The counter of steps under the handlers -/

theorem Machine.stable_steps (n : Nat) : Stable fun m => m.steps = n where
  tape _ := ⟨fun _ _ h => h, fun _ _ _ h => h, fun _ _ h => h⟩
  jump _ _ _ h := h
  program _ _ _ h := h

namespace Dialect

variable {d : Dialect} {s s' s₀ : Session} {e : Error} {L n fuel : Nat}

/-! ### The counter of steps in a run -/

theorem keeps_steps_begin (hl : d.Uses Handler.isLibrary) (n : Nat) :
    Keeps d.begin fun s => s.machine.steps = n :=
  (Machine.stable_steps n).keeps_begin hl

theorem keeps_steps_finish (hl : d.Uses Handler.isLibrary) (n : Nat) :
    Keeps d.finish fun s => s.machine.steps = n :=
  (Machine.stable_steps n).keeps_finish hl

/-- An instruction counts once it has had its effect, also if the hook behind it fails. -/
theorem steps_execute (hl : d.Uses Handler.isLibrary) (op : Opcode) (ip n : Nat) :
    Leads (d.execute op ip) (fun s => s.machine.steps = n) (fun s => s.machine.steps = n + 1)
      fun _ s => s.machine.steps ≤ n + 1 := by
  have heffect : Keeps (d.effect op) fun s => s.machine.steps = n :=
    (Machine.stable_steps n).keeps_effect hl op
  have hstep : Keeps (d.runHook d.hooks.step) fun s => s.machine.steps = n + 1 :=
    (Machine.stable_steps (n + 1)).keeps_runHook hl.step
  have heffect' : Leads (d.effect op) (fun s => s.machine.steps = n) (fun s => s.machine.steps = n)
      fun _ s => s.machine.steps ≤ n + 1 := fun s h =>
    (leads_iff_keeps.2 heffect s h).imp (fun _ h => h) fun _ _ h => by omega
  have hhook : Leads (d.runHook d.hooks.step) (fun s => s.machine.steps = n + 1)
      (fun s => s.machine.steps = n + 1) fun _ s => s.machine.steps ≤ n + 1 := fun s h =>
    (leads_iff_keeps.2 hstep s h).imp (fun _ h => h) fun _ _ h => Nat.le_of_eq h
  exact leads_execute heffect' (fun s h => congrArg (· + 1) h) hhook

theorem steps_step (hl : d.Uses Handler.isLibrary) (s : Session) :
    match d.step s with
    | (.ok true, s') => s'.machine.steps = s.machine.steps + 1
    | (.ok false, s') => s'.machine.steps = s.machine.steps
    | (.error _, s') => s'.machine.steps ≤ s.machine.steps + 1 := by
  unfold step
  cases hi : s.machine.current? with
  | none => rfl
  | some i =>
    dsimp only
    cases d.reachedLimit? s.machine.steps with
    | some limit => exact Nat.le_succ _
    | none =>
      have hx := steps_execute hl i.op s.machine.ip s.machine.steps s rfl
      dsimp only
      cases he : d.execute i.op s.machine.ip s with
      | mk r s' =>
        rw [he] at hx
        cases r with
        | error e => exact hx
        | ok u => exact hx

theorem steps_of_step (hl : d.Uses Handler.isLibrary) (h : d.step s = (.ok true, s')) :
    s'.machine.steps = s.machine.steps + 1 := by
  have hs := steps_step hl s
  rwa [h] at hs

theorem steps_step_le (hl : d.Uses Handler.isLibrary) (s : Session) :
    (d.step s).2.machine.steps ≤ s.machine.steps + 1 := by
  have hs := steps_step hl s
  cases hr : d.step s with
  | mk r s' =>
    rw [hr] at hs
    rcases r with e | _ | _
    · exact hs
    · exact Nat.le_succ_of_le (Nat.le_of_eq hs)
    · exact Nat.le_of_eq hs

theorem steps_of_steps (hl : d.Uses Handler.isLibrary) (h : d.steps n s = (none, s')) :
    s'.machine.steps = s.machine.steps + n := by
  induction n generalizing s with
  | zero =>
    cases h
    rfl
  | succ n ih =>
    rw [steps] at h
    split at h
    · cases h
    · cases h
    · next hst =>
      have hs := steps_of_step hl hst
      have hn := ih h
      omega

/-! ### Runs in progress -/

/-- The hook before the run and then `n` steps have succeeded, and led from `s₀` to `s`. -/
def Comes (d : Dialect) (s₀ : Session) (n : Nat) (s : Session) : Prop :=
  ∃ s₁, d.begin s₀ = (.ok (), s₁) ∧ d.steps n s₁ = (none, s)

theorem comes_of_steps (hb : (d.begin s₀).1 = .ok ()) (hn : (d.steps n (d.begin s₀).2).1 = none) :
    d.Comes s₀ n (d.steps n (d.begin s₀).2).2 :=
  ⟨_, Prod.ext hb rfl, Prod.ext hn rfl⟩

theorem steps_of_comes (hl : d.Uses Handler.isLibrary) (h₀ : s₀.machine.steps = 0)
    (h : d.Comes s₀ n s) : s.machine.steps = n := by
  obtain ⟨s₁, hb, hn⟩ := h
  have h₁ := (keeps_steps_begin hl 0).of_eq h₀ hb
  have hs := steps_of_steps hl hn
  omega

theorem runLoaded_of_comes (h : d.Comes s₀ n s) (k : Nat) :
    d.runLoaded (n + k) s₀ = d.conclude (d.steps k s) := by
  obtain ⟨s₁, hb, hn⟩ := h
  rw [runLoaded, hb, ← steps_add hn k]

theorem runLoaded_of_step_error (h : d.Comes s₀ n s) (hs : d.step s = (.error e, s'))
    (hf : n < fuel) : d.runLoaded fuel s₀ = (some (.error e), s') := by
  obtain ⟨k, rfl⟩ := Nat.exists_eq_add_of_lt hf
  rw [Nat.add_assoc, runLoaded_of_comes h, steps, hs]
  rfl

theorem runLoaded_of_end (h : d.Comes s₀ n s) (hs : s.machine.current? = none)
    (hf : n < fuel) : d.runLoaded fuel s₀ = d.conclude (some (.ok ()), s) := by
  have hstep : d.step s = (.ok false, s) := by
    unfold step
    rw [hs]
  obtain ⟨k, rfl⟩ := Nat.exists_eq_add_of_lt hf
  rw [Nat.add_assoc, runLoaded_of_comes h, steps, hstep]

theorem conclude_ends (r : Except Error Unit) (s : Session) :
    ∃ r', (d.conclude (some r, s)).1 = some r' := by
  cases r with
  | error e => exact ⟨_, rfl⟩
  | ok u =>
    rw [conclude]
    split
    · exact ⟨_, rfl⟩
    · exact ⟨_, rfl⟩

/-! ### Dialects with and without a limit -/

def withStepLimit (d : Dialect) (limit : Option Nat) : Dialect :=
  { d with
    config := { d.config with stepLimit := limit }
    config_valid :=
      ⟨d.config_valid.tapeSize_pos, d.config_valid.cellWidth_pos, d.config_valid.cellWidth_le⟩ }

theorem withConfig_stepLimit (d : Dialect) (limit : Option Nat) :
    d.withConfig { d.config with stepLimit := limit } = .ok (d.withStepLimit limit) := by
  have hv := (MachineConfig.flaw?_eq_none_iff _).2 (d.withStepLimit limit).config_valid
  unfold withConfig
  split
  · next hf => cases hf.symm.trans hv
  · rfl

theorem uses_withStepLimit {kind : Handler → Bool} (hu : d.Uses kind) (limit : Option Nat) :
    (d.withStepLimit limit).Uses kind :=
  uses_of_withConfig hu (withConfig_stepLimit d limit)

theorem sameEngine_withStepLimit (hl : d.Uses Handler.isLibrary) (limit limit' : Option Nat) :
    (d.withStepLimit limit).SameEngine (d.withStepLimit limit') :=
  sameEngine_of_uses (uses_withStepLimit hl limit)
    (fun _ hg => Handler.run_congr hg ⟨rfl, rfl, rfl⟩ (.inr ⟨rfl, rfl⟩)) rfl rfl rfl

theorem step_withStepLimit (hl : d.Uses Handler.isLibrary) (h : s.machine.steps < L) :
    (d.withStepLimit (some L)).step s = (d.withStepLimit none).step s := by
  refine (sameEngine_withStepLimit hl (some L) none).step_eq_of_reachedLimit? ?_
  simp [reachedLimit?, withStepLimit, h]

theorem step_at_limit {i : Instruction} (hi : s.machine.current? = some i)
    (h : L ≤ s.machine.steps) :
    (d.withStepLimit (some L)).step s =
      (.error (.runtime (.stepLimit L) ⟨some i.op, s.machine.ip, s.machine.tape.ptr⟩), s) := by
  have hlimit : (d.withStepLimit (some L)).reachedLimit? s.machine.steps = some L := by
    simp [reachedLimit?, withStepLimit, h]
  rw [step, hi]
  dsimp only
  rw [hlimit]

theorem steps_withStepLimit (hl : d.Uses Handler.isLibrary) (h : s.machine.steps + n ≤ L) :
    (d.withStepLimit (some L)).steps n s = (d.withStepLimit none).steps n s := by
  induction n generalizing s with
  | zero => rfl
  | succ n ih =>
    rw [steps, steps, step_withStepLimit hl (by omega)]
    cases hst : (d.withStepLimit none).step s with
    | mk r s' =>
      rcases r with e | _ | _
      · rfl
      · rfl
      · have hs := steps_of_step (uses_withStepLimit hl none) hst
        exact ih (by omega)

/-- Up to the limit, the runs with and without it are in progress together. -/
theorem comes_withStepLimit (hl : d.Uses Handler.isLibrary) (h₀ : s₀.machine.steps = 0)
    (hn : n ≤ L) :
    (d.withStepLimit (some L)).Comes s₀ n s ↔ (d.withStepLimit none).Comes s₀ n s := by
  have hb := (sameEngine_withStepLimit hl (some L) none).begin_eq
  refine exists_congr fun s₁ => ?_
  rw [hb]
  refine and_congr_right fun h₁ => ?_
  have hs := (keeps_steps_begin (uses_withStepLimit hl none) 0).of_eq h₀ h₁
  rw [steps_withStepLimit hl (by omega)]

theorem keeps_step_limited (hl : d.Uses Handler.isLibrary) (L : Nat) :
    Keeps (d.withStepLimit (some L)).step fun s => s.machine.steps ≤ L := by
  intro s hs
  rcases Nat.lt_or_ge s.machine.steps L with hlt | hge
  · have := steps_step_le (uses_withStepLimit hl (some L)) s
    omega
  · cases hi : s.machine.current? with
    | none =>
      unfold step
      rw [hi]
      exact hs
    | some i =>
      rw [step_at_limit hi hge]
      exact hs

theorem steps_runLoaded_le (hl : d.Uses Handler.isLibrary) (h₀ : s₀.machine.steps = 0)
    (L fuel : Nat) : ((d.withStepLimit (some L)).runLoaded fuel s₀).2.machine.steps ≤ L := by
  have hu := uses_withStepLimit hl (some L)
  have hbegin : Keeps (d.withStepLimit (some L)).begin fun s => s.machine.steps ≤ L :=
    fun s hs => by
      have := keeps_steps_begin hu s.machine.steps s rfl
      omega
  have hfinish : Keeps (d.withStepLimit (some L)).finish fun s => s.machine.steps ≤ L :=
    fun s hs => by
      have := keeps_steps_finish hu s.machine.steps s rfl
      omega
  have hrun := leads_runLoaded (leads_iff_keeps.2 hbegin)
    (leads_iff_keeps.2 (keeps_step_limited hl L)) (leads_iff_keeps.2 hfinish) fuel
    (h₀ ▸ Nat.zero_le L)
  split at hrun
  · next heq =>
    rw [heq]
    exact hrun
  · next heq =>
    rw [heq]
    exact ends_iff_of_const.1 hrun

/-- One step more than the limit is enough for a limited run to end. -/
theorem runLoaded_limited_ends (hl : d.Uses Handler.isLibrary) (h₀ : s₀.machine.steps = 0)
    (hf : L < fuel) : ∃ r, ((d.withStepLimit (some L)).runLoaded fuel s₀).1 = some r := by
  have hu := uses_withStepLimit hl (some L)
  cases hb : (d.withStepLimit (some L)).begin s₀ with
  | mk r s₁ =>
    cases r with
    | error e => exact ⟨.error e, by rw [runLoaded, hb]⟩
    | ok u =>
      -- If `L` steps do not end the run, the counter is at the limit, where the next one does.
      cases hn : (d.withStepLimit (some L)).steps L s₁ with
      | mk r s =>
        cases r with
        | some r =>
          rw [runLoaded, hb]
          dsimp only
          rw [steps_mono hn (Nat.le_of_lt hf)]
          exact conclude_ends r s
        | none =>
          have hc : (d.withStepLimit (some L)).Comes s₀ L s := ⟨s₁, hb, hn⟩
          have hs := steps_of_comes hu h₀ hc
          cases hi : s.machine.current? with
          | none =>
            rw [runLoaded_of_end hc hi hf]
            exact conclude_ends _ s
          | some i =>
            rw [runLoaded_of_step_error hc (step_at_limit hi (Nat.le_of_eq hs.symm)) hf]
            exact ⟨_, rfl⟩

/-- A limit of `L` steps only cuts a run short. The limited run always ends and executes at most
`L` instructions. It agrees with the unlimited one on the hook before the run and on every step
from a counter below `L`; so it ends in the same way and the same session if the unlimited run
leaves the program after at most `L` steps, or stops with a fault in that hook or in such a step.
If another instruction stands behind `L` steps, it stops there, where the unlimited run is. -/
theorem run_withStepLimit (hl : d.Uses Handler.isLibrary) (L : Nat) (p : Program) (m : Machine)
    (stream : Stream) :
    let free := d.withStepLimit none
    let limited := d.withStepLimit (some L)
    let s₀ : Session := ⟨d.load p m, stream⟩
    (∀ fuel, L < fuel → ∃ r, (limited.run fuel p m stream).1 = some r) ∧
    (∀ fuel, (limited.run fuel p m stream).2.machine.steps ≤ L) ∧
    (∀ n s, limited.Comes s₀ n s → n ≤ L) ∧
    limited.begin = free.begin ∧
    (∀ s, s.machine.steps < L → limited.step s = free.step s) ∧
    (∀ e s, free.begin s₀ = (.error e, s) → ∀ fuel,
      limited.run fuel p m stream = (some (.error e), s) ∧
      free.run fuel p m stream = (some (.error e), s)) ∧
    ∀ n s, free.Comes s₀ n s →
      s.machine.steps = n ∧
      (n ≤ L → s.machine.current? = none → ∀ fuel, n < fuel →
        limited.run fuel p m stream = free.run fuel p m stream ∧
        free.run fuel p m stream = free.conclude (some (.ok ()), s)) ∧
      (n < L → ∀ e s', free.step s = (.error e, s') → ∀ fuel, n < fuel →
        limited.run fuel p m stream = (some (.error e), s') ∧
        free.run fuel p m stream = (some (.error e), s')) ∧
      (n = L → ∀ i, s.machine.current? = some i → ∀ fuel, L < fuel →
        limited.run fuel p m stream =
          (some (.error (.runtime (.stepLimit L)
            ⟨some i.op, s.machine.ip, s.machine.tape.ptr⟩)), s)) := by
  intro free limited s₀
  have hlim : limited.Uses Handler.isLibrary := uses_withStepLimit hl (some L)
  have hfree : free.Uses Handler.isLibrary := uses_withStepLimit hl none
  have hsame : limited.SameEngine free := sameEngine_withStepLimit hl (some L) none
  have h₀ : s₀.machine.steps = 0 := rfl
  have hstep (s : Session) (hs : s.machine.steps < L) : limited.step s = free.step s :=
    step_withStepLimit hl hs
  have hcomes {n : Nat} {s : Session} (hn : n ≤ L) (h : free.Comes s₀ n s) :
      limited.Comes s₀ n s := (comes_withStepLimit hl h₀ hn).2 h
  refine ⟨fun fuel hf => runLoaded_limited_ends hl h₀ hf,
    fun fuel => steps_runLoaded_le hl h₀ L fuel, fun n s h => ?_, hsame.begin_eq, hstep,
    fun e s h fuel => ?_, fun n s h => ?_⟩
  · have hle := steps_runLoaded_le hl h₀ L n
    have hrun : limited.runLoaded n s₀ = (none, s) := runLoaded_of_comes h 0
    rw [hrun, steps_of_comes hlim h₀ h] at hle
    exact hle
  · have h' : limited.begin s₀ = (.error e, s) := hsame.begin_eq ▸ h
    exact ⟨by rw [run, runLoaded]; exact h' ▸ rfl, by rw [run, runLoaded]; exact h ▸ rfl⟩
  · have hs := steps_of_comes hfree h₀ h
    refine ⟨hs, fun hn hi fuel hf => ?_, fun hn e s' he fuel hf => ?_, fun hn i hi fuel hf => ?_⟩
    · have hend := runLoaded_of_end h hi hf
      refine ⟨?_, hend⟩
      have hend' := runLoaded_of_end (hcomes hn h) hi hf
      rw [hsame.conclude_eq] at hend'
      exact hend'.trans hend.symm
    · have he' : limited.step s = (.error e, s') := (hstep s (by omega)).trans he
      exact ⟨runLoaded_of_step_error (hcomes (by omega) h) he' hf, runLoaded_of_step_error h he hf⟩
    · subst hn
      exact runLoaded_of_step_error (hcomes (Nat.le_refl _) h)
        (step_at_limit hi (Nat.le_of_eq hs.symm)) hf

/-- The greeting takes all of the thirteen steps, and the program behind it would need one more. -/
theorem run_withStepLimit_greeting :
    let p : Program := #[⟨.prv, none⟩]
    let m := shortBraincrash.newMachine
    ∃ s, (shortBraincrash.withStepLimit none).Comes ⟨shortBraincrash.load p m, {}⟩ 13 s ∧
      (shortBraincrash.withStepLimit (some 13)).run 14 p m {} =
        (some (.error (.runtime (.stepLimit 13) ⟨some .prv, 13, 13⟩)), s) := by
  intro p m
  let free := shortBraincrash.withStepLimit none
  let s := (free.steps 13 (free.begin ⟨shortBraincrash.load p m, {}⟩).2).2
  have hl : shortBraincrash.Uses Handler.isLibrary := uses_of_all rfl rfl rfl rfl
  have hc : free.Comes ⟨shortBraincrash.load p m, {}⟩ 13 s :=
    comes_of_steps (by decide +kernel) (by decide +kernel)
  have hi : s.machine.current? = some ⟨.prv, none⟩ := by decide +kernel
  have hat : s.machine.ip = 13 ∧ s.machine.tape.ptr = 13 := by decide +kernel
  clear_value s
  obtain ⟨-, -, -, -, -, -, hrun⟩ := run_withStepLimit hl 13 p m {}
  obtain ⟨-, -, -, hlimit⟩ := hrun 13 s hc
  refine ⟨s, hc, ?_⟩
  rw [hlimit rfl _ hi 14 (by decide), hat.1, hat.2]

end Dialect

end TapeDialects
