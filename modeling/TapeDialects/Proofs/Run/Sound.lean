import TapeDialects.Catalog
import TapeDialects.Proofs.Run.Stable
import TapeDialects.Proofs.Tape.Conforms

/-!
# Sound machines

The invariant of a machine over all its runs: the tape conforms to the configuration of the
dialect, and the instruction pointer stands on an instruction or at the end of the program.

While an instruction is executed the pointer stands on it, so there is room for one more step:
`Machine.Sound c room` asks for that room. Handlers keep the invariant with room for one step as
well as without, which is what lets the engine move on behind an instruction (`sound_execute`).
A fault in the middle of a handler is no exception.
-/

namespace TapeDialects

open Act

/-! ### Machines -/

namespace Machine

/-- The tape conforms to the configuration, and `room` steps lead no further than to the end of
the program. -/
structure Sound (c : MachineConfig) (room : Nat) (m : Machine) : Prop where
  conforms : m.tape.Conforms c
  ip_le : m.ip + room ≤ m.program.size

variable {c : MachineConfig} {room : Nat}

/-- Room for one step at most is left by a jump, too. -/
theorem stable_sound (hc : c.Valid) (hr : room ≤ 1) : Stable (Sound c room) where
  tape m :=
    { keeps_set := fun v t h => ⟨Tape.keeps_set hc v t h.conforms, h.ip_le⟩
      keeps_setAt := fun i v t h => ⟨Tape.keeps_setAt hc i v t h.conforms, h.ip_le⟩
      keeps_seek := fun target t h => ⟨Tape.keeps_seek hc target t h.conforms, h.ip_le⟩ }
  jump m i hi h := ⟨h.conforms, by dsimp only; omega⟩
  program m p hp h := ⟨h.conforms, Nat.le_trans h.ip_le hp⟩

end Machine

def Session.Sound (c : MachineConfig) (room : Nat) (s : Session) : Prop := s.machine.Sound c room

/-! ### Runs -/

namespace Dialect

variable {d : Dialect} {s : Session} {room : Nat}

/-- The sessions that a machine of the dialect can be in: as it is made, with a program that it is
given, and behind each of the actions of a run, whether they complete or fail. -/
inductive Reaches (d : Dialect) : Session → Prop where
  | new (stream : Stream) : d.Reaches ⟨d.newMachine, stream⟩
  | load {s : Session} (p : Program) (stream : Stream) :
    d.Reaches s → d.Reaches ⟨d.load p s.machine, stream⟩
  | begin {s : Session} : d.Reaches s → d.Reaches (d.begin s).2
  | step {s : Session} : d.Reaches s → d.Reaches (d.step s).2
  | finish {s : Session} : d.Reaches s → d.Reaches (d.finish s).2

theorem keeps_effect (hl : d.Uses Handler.isLibrary) (hr : room ≤ 1) (op : Opcode) :
    Keeps (d.effect op) (Session.Sound d.config room) :=
  (Machine.stable_sound d.config_valid hr).keeps_effect hl op

theorem keeps_runHook {hook : Option Handler} (hh : ∀ h ∈ hook, h.isLibrary = true)
    (hr : room ≤ 1) : Keeps (d.runHook hook) (Session.Sound d.config room) :=
  (Machine.stable_sound d.config_valid hr).keeps_runHook hh

/-- An instruction that stands under the pointer leaves the pointer on the program or at its end. -/
theorem sound_execute (hl : d.Uses Handler.isLibrary) (op : Opcode) (ip : Nat) :
    Leads (d.execute op ip) (Session.Sound d.config 1) (Session.Sound d.config 0)
      fun _ => Session.Sound d.config 0 := by
  have heffect : Leads (d.effect op) (Session.Sound d.config 1) (Session.Sound d.config 1)
      fun _ => Session.Sound d.config 0 := fun s hs =>
    (leads_iff_keeps.2 (keeps_effect hl (Nat.le_refl 1) op) s hs).imp (fun _ h => h)
      fun _ _ h => ⟨h.conforms, Nat.le_of_succ_le h.ip_le⟩
  exact leads_execute heffect (fun s h => ⟨h.conforms, h.ip_le⟩)
    (leads_iff_keeps.2 (keeps_runHook hl.step (Nat.zero_le 1)))

theorem keeps_step (hl : d.Uses Handler.isLibrary) :
    Keeps d.step (Session.Sound d.config 0) := by
  refine leads_iff_keeps.1 (leads_step (fun _ _ _ h _ => h) fun s i h hi => ?_)
  have hip : s.machine.ip < s.machine.program.size := (Array.getElem?_eq_some_iff.1 hi).1
  exact sound_execute hl i.op s.machine.ip s ⟨h.conforms, hip⟩

theorem keeps_begin (hl : d.Uses Handler.isLibrary) :
    Keeps d.begin (Session.Sound d.config 0) :=
  (Machine.stable_sound d.config_valid (Nat.zero_le 1)).keeps_begin hl

theorem keeps_finish (hl : d.Uses Handler.isLibrary) :
    Keeps d.finish (Session.Sound d.config 0) :=
  (Machine.stable_sound d.config_valid (Nat.zero_le 1)).keeps_finish hl

theorem sound_of_reaches (hl : d.Uses Handler.isLibrary) (h : d.Reaches s) :
    s.Sound d.config 0 := by
  induction h with
  | new stream => exact ⟨Tape.conforms_ofConfig d.config_valid, Nat.zero_le _⟩
  | load p stream h ih =>
    exact ⟨ih.conforms.conforms_reset d.config_valid, Nat.zero_le _⟩
  | begin h ih => exact keeps_begin hl _ ih
  | step h ih => exact keeps_step hl _ ih
  | finish h ih => exact keeps_finish hl _ ih

theorem reaches_run (h : d.Reaches s) (fuel : Nat) (p : Program) (stream : Stream) :
    d.Reaches (d.run fuel p s.machine stream).2 :=
  keeps_runLoaded (fun _ => .begin) (fun _ => .step) (fun _ => .finish) fuel (h.load p stream)

theorem step_eq_false {s' : Session} (h : d.step s = (.ok false, s')) :
    s' = s ∧ s.machine.program.size ≤ s.machine.ip := by
  unfold step at h
  split at h
  · next hn =>
    cases h
    exact ⟨rfl, by simpa [Machine.current?] using hn⟩
  · split at h
    · cases h
    · split at h <;> cases h

/-- Whatever happens to a machine in its runs, faults in the middle of a handler included: its
pointer is on the tape, every cell is in range, the tape has its length or has grown within the
limit, and the instruction pointer is on the program or at its end. Hence the current cell can be
read, values can be reduced, and a step finds no instruction only at the end of the program. -/
theorem inBounds_of_reaches (hl : d.Uses Handler.isLibrary) (h : d.Reaches s) :
    s.machine.tape.ptr < s.machine.tape.cells.size ∧
    (∀ v ∈ s.machine.tape.cells, d.config.cellMin ≤ v ∧ v ≤ d.config.cellMax) ∧
    (d.config.edge ≠ .grow → s.machine.tape.cells.size = d.config.tapeSize) ∧
    (d.config.edge = .grow → d.config.tapeSize ≤ s.machine.tape.cells.size ∧
      s.machine.tape.cells.size ≤ max d.config.tapeSize (1 <<< 24)) ∧
    s.machine.ip ≤ s.machine.program.size ∧
    s.machine.tape.get? s.machine.tape.ptr = some s.machine.tape.get ∧
    0 < s.machine.tape.greatest - s.machine.tape.least + 1 ∧
    (∀ s', d.step s = (.ok false, s') → s'.machine.ip = s'.machine.program.size) ∧
    ∀ fuel p stream, d.Reaches (d.run fuel p s.machine stream).2 := by
  obtain ⟨ht, hip⟩ := sound_of_reaches hl h
  have hspan := ht.span_eq d.config_valid
  have hpos := d.config.valueCount_pos
  refine ⟨ht.ptr_lt, ht.cells_mem, ht.size_fixed, fun _ => ⟨ht.size_ge, ht.size_le⟩, hip,
    ht.get?_ptr, by omega, ?_, reaches_run h⟩
  intro s' hs
  obtain ⟨rfl, hle⟩ := step_eq_false hs
  omega

/-- The dialect with literals on a tape of two narrow cells. -/
def shortTettette : Dialect :=
  { Catalog.tettette with
    config := { tapeSize := 2 }
    config_valid := ⟨by decide, by decide, by decide⟩ }

/-- The second character of the literal does not fit; the first is on the tape by then. -/
theorem inBounds_of_reaches_halfway :
    let r := shortTettette.run 1 #[⟨.buf, some "aあ"⟩] shortTettette.newMachine {}
    shortTettette.Uses Handler.isLibrary ∧ shortTettette.Reaches r.2 ∧
      r.1 = some (.error (.runtime (.cellOverflow 12354 0 255) ⟨some .buf, 0, 1⟩)) ∧
      r.2.machine.tape.cells = #[97, 0] ∧
      r.2.machine.tape.get? r.2.machine.tape.ptr = some r.2.machine.tape.get := by
  have hl : shortTettette.Uses Handler.isLibrary := uses_of_all (by decide) rfl rfl rfl
  have hn : shortTettette.Reaches ⟨shortTettette.newMachine, {}⟩ := .new {}
  have hr := reaches_run hn 1 #[⟨.buf, some "aあ"⟩] {}
  exact ⟨hl, hr, rfl, rfl, (inBounds_of_reaches hl hr).2.2.2.2.2.1⟩

end Dialect

end TapeDialects
