import TapeDialects.Proofs.Run.History
import TapeDialects.Proofs.Run.Relocated
import TapeDialects.Proofs.Tape.Texts

/-!
# Greetings

The hook in front of a run puts a text on the tape and as many `nxt` before the program. They take
the pointer behind the text, and nothing else comes of them: the program runs as it would alone, at
higher addresses (`Dialect.step_behind`). The dialects with a greeting have handlers that are
operations only, and no hook between the steps.
-/

namespace TapeDialects

open Act

/-- The instructions that take the pointer past the greeting. -/
def Machine.pastGreeting : Program := Array.replicate greeting.length { op := .nxt }

theorem Machine.noBrackets_pastGreeting : pastGreeting.NoBrackets := by
  intro x hx
  rw [(Array.mem_replicate.1 hx).2]
  rfl

theorem Machine.greet_apply {m : Machine} {t : Tape}
    (hs : Tape.storeCharsAt 0 greeting.toList m.tape = (.ok (), t)) (hp : m.program ≠ #[]) :
    greet m = (.ok (), { m with tape := t, program := pastGreeting ++ m.program }) := by
  have hempty : m.program.isEmpty = false := by simpa using hp
  rw [greet, bind_apply, onTape_apply, hs]
  show (_, if m.program.isEmpty then _ else _) = _
  rw [hempty]
  rfl

namespace Dialect

/-- The greeting is put in front of every run, and nothing else is done around the steps. -/
structure Greets (d : Dialect) : Prop where
  structured : d.Structured
  library : d.Uses Handler.isLibrary
  preRun : d.hooks.preRun = some .greet
  nxt_unbound : d.handler? .nxt = none
  ascii_le : 127 ≤ d.config.cellMax
  room : Machine.greeting.toList.length < d.config.tapeSize

variable {d : Dialect} {m : Machine} {p : Program} {stream : Stream}

/-- The tape with the greeting, and the pointer at index `i`. -/
def greeted (d : Dialect) (i : Nat) : Tape := .withText d.config Machine.greeting.toList i

namespace Greets

variable (hd : d.Greets)
include hd

theorem fits : ∀ c ∈ Machine.greeting.toList,
    (Tape.ofConfig d.config).fit c.toNat = .ok (c.toNat : Int) := by
  have hascii : Machine.greeting.toList.all (·.toNat ≤ 127) = true := by decide
  intro c hc
  have hmax : c.toNat ≤ 127 := by simpa using List.all_eq_true.1 hascii c hc
  have hmin := d.config.cellMin_nonpos
  have hle := hd.ascii_le
  refine Tape.fit_of_mem ⟨?_, ?_⟩
  · show d.config.cellMin ≤ _
    omega
  · show _ ≤ d.config.cellMax
    omega

theorem begin_eq_ok (hp : p ≠ #[]) :
    d.begin ⟨⟨.ofConfig d.config, p, 0, 0⟩, stream⟩ =
      (.ok (), ⟨⟨d.greeted 0, Machine.pastGreeting ++ p, 0, 0⟩, stream⟩) := by
  have hgreet := Machine.greet_apply (m := ⟨.ofConfig d.config, p, 0, 0⟩)
    (Tape.storeCharsAt_ofConfig hd.fits (Nat.le_of_lt hd.room)) hp
  rw [begin, hd.preRun]
  refine locatedOutside_ok ?_
  rw [runHook, Handler.run, onMachine_apply, hgreet]
  rfl

theorem steps_pastGreeting (p : Program) (stream : Stream) :
    d.steps 13 ⟨⟨d.greeted 0, Machine.pastGreeting ++ p, 0, 0⟩, stream⟩ =
      (none, (Session.mk ⟨d.greeted 13, p, 0, 0⟩ stream).behind Machine.pastGreeting) := by
  have hp : (Machine.pastGreeting ++ p).Holds 0 (List.replicate 13 { op := .nxt }) :=
    Program.holds_front Machine.pastGreeting p
  refine steps_repeated hd.structured rfl hp (b := fun j => ⟨d.greeted j, stream⟩) (fun j hj => ?_) 0
  have hlength : Machine.greeting.toList.length = 13 := rfl
  have hroom := hd.room
  have hsize : (d.greeted j).cells.size = d.config.tapeSize := Tape.size_withText (by omega)
  have hnext : (d.greeted j).ptr + 1 < (d.greeted j).cells.size := by
    rw [hsize]
    show j + 1 < _
    omega
  rw [effectAlone_ofTape (i := { op := .nxt }) (x := Tape.shift 1) hd.nxt_unbound rfl,
    Tape.shift_next hnext]
  rfl

end Greets

end Dialect

namespace Catalog

theorem greets_of_mem {d : Dialect} (hd : d ∈ [braincrash, commdis]) : d.Greets := by
  simp only [List.mem_cons, List.not_mem_nil, or_false] at hd
  rcases hd with rfl | rfl
  all_goals exact
    { structured :=
        { noStepHook := rfl
          noStepLimit := rfl
          opn_unbound := by decide
          cls_unbound := by decide
          operations := Dialect.bindsOperations_of_all (by decide) }
      library := Dialect.uses_of_all (by decide) rfl rfl rfl
      preRun := rfl
      nxt_unbound := by decide
      ascii_le := by decide
      room := by decide }

/-- The greeting only relocates the program. When the pointer is past it, the machine goes on as one
that has no hooks, holds the program alone and has that tape: the same steps with the same effects,
the same faults at addresses that are higher by 13, and the same end. -/
theorem steps_past_greeting {d : Dialect} (hd : d ∈ [braincrash, commdis]) {m : Machine}
    (hm : d.Owns m) {p : Program} (hp : p ≠ #[]) (stream : Stream) :
    let tape := d.greeted 13
    let plain : Session := ⟨⟨tape, p, 0, 0⟩, stream⟩
    let front : Program := Array.replicate 13 { op := .nxt }
    (tape.ptr = 13 ∧ tape.cells.size = d.config.tapeSize ∧
      (∀ i c, "Hello, world!".toList[i]? = some c → tape.get? i = some (c.toNat : Int)) ∧
      ∀ i, 13 ≤ i → i < d.config.tapeSize → tape.get? i = some 0) ∧
    ∃ b, d.begin ⟨d.load p m, stream⟩ = (.ok (), b) ∧
      d.steps 13 b = (none, plain.behind front) ∧ (plain.behind front).machine.ip = 13 ∧
      (∀ n, d.steps (13 + n) b =
        ((d.withoutHooks.steps n plain).1.map (·.mapError (.behind 13)),
          (d.withoutHooks.steps n plain).2.behind front)) ∧
      ∀ s : Session, d.step (s.behind front) =
        ((d.withoutHooks.step s).1.mapError (.behind 13), (d.withoutHooks.step s).2.behind front)
    := by
  have hg := greets_of_mem hd
  intro tape plain front
  have hlength : Machine.greeting.toList.length = 13 := rfl
  have hroom := hg.room
  have hfront : front.NoBrackets := Machine.noBrackets_pastGreeting
  have hstart := hg.steps_pastGreeting p stream
  have hhook := hg.structured.noStepHook
  refine ⟨⟨rfl, Tape.size_withText (by omega), fun i c hi => Tape.get?_withText_text hi,
      fun i hi hlt => Tape.get?_withText_zero (by omega) hlt⟩,
    _, ?_, hstart, rfl, fun n => ?_, fun s => ?_⟩
  · rw [Dialect.load_of_owns hg.library hm]
    exact hg.begin_eq_ok hp
  · rw [Dialect.steps_add hstart, Dialect.steps_withoutHooks hhook]
    exact Dialect.steps_behind hg.structured hfront n plain
  · rw [Dialect.step_withoutHooks hhook]
    exact Dialect.step_behind hg.structured hfront s

theorem steps_opn_alone {d : Dialect} (hd : d.Structured) {b : Bench} (hz : b.cell = 0) (k : Nat) :
    d.steps 1 (b.place #[{ op := .opn }] 0 k) =
      (some (.error (.runtime (.unmatchedBracket .forward) ⟨some .opn, 0, b.tape.ptr⟩)),
        b.place #[{ op := .opn }] 0 k) := by
  have hat : (#[{ op := .opn }] : Program)[0]? = some { op := .opn } := rfl
  have hcell : (b.place #[{ op := .opn }] 0 k).cell = 0 := hz
  have hnone : Program.closerFrom? #[{ op := .opn }] 0 1 = none := by simp [Program.closerFrom?]
  rw [Dialect.steps, Dialect.step_place hd hat, hd.effect_opn, Session.openLoop, if_pos hcell,
    onMachine_apply, Machine.jumpForward]
  simp only [Bench.place, Nat.zero_add, hnone]

/-- A bracket without a partner is reported at its place behind the instructions in front. -/
theorem steps_past_greeting_unmatched :
    let p : Program := #[{ op := .opn }]
    braincrash.Owns braincrash.newMachine ∧ p ≠ #[] ∧
    ∃ b, braincrash.begin ⟨braincrash.load p braincrash.newMachine, {}⟩ = (.ok (), b) ∧
      (braincrash.steps 14 b).1 =
        some (.error (.runtime (.unmatchedBracket .forward) ⟨some .opn, 13, 13⟩)) := by
  intro p
  have hp : p ≠ #[] := by decide
  have hd : braincrash ∈ [braincrash, commdis] := List.mem_cons_self ..
  have hstructured := (greets_of_mem hd).structured
  obtain ⟨⟨_, _, _, hzero⟩, b, hb, _, _, hsteps, _⟩ := steps_past_greeting hd .new hp {}
  refine ⟨.new, hp, b, hb, ?_⟩
  have hcell : (braincrash.greeted 13).get = 0 :=
    Tape.get_of_get? (hzero 13 (Nat.le_refl _) (by decide))
  have hplain : (braincrash.withoutHooks.steps 1 ⟨⟨braincrash.greeted 13, p, 0, 0⟩, {}⟩).1 =
      some (.error (.runtime (.unmatchedBracket .forward) ⟨some .opn, 0, 13⟩)) := by
    rw [Dialect.steps_withoutHooks rfl]
    exact congrArg Prod.fst
      (steps_opn_alone hstructured (b := ⟨braincrash.greeted 13, {}⟩) hcell 0)
  have hn := congrArg Prod.fst (hsteps 1)
  rw [hplain] at hn
  exact hn

end Catalog

end TapeDialects
