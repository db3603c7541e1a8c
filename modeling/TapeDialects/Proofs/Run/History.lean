import TapeDialects.Catalog
import TapeDialects.Proofs.Run.Stable
import TapeDialects.Proofs.Tape.Conforms

/-!
# Runs and the history of a machine

A run depends on the dialect, the program and the streams, and on nothing that was done to the
machine before (`Dialect.run_eq_run_new`). What a machine of a dialect can have been through is
`Dialect.Owns`: runs that ended, failed or were broken off, single steps and hooks, and whatever its
interface lets a caller do to its pointer, its program and its tape. The tape may be of any length
and the pointers may be anywhere by then, but its policies are those of the configuration still,
and these are all that loading a program takes over.
-/

namespace TapeDialects

open Act

/-- What a caller can do to a tape, whichever machine it is in. -/
inductive Tape.Call where
  | reset (size : Nat)
  | set (v : Int)
  | setAt (i : Nat) (v : Int)
  | add (delta : Int)
  | shift (delta : Int)
  | seek (target : Int)

namespace Tape.Call

def run : Tape.Call → Act Tape Unit
  | reset size => modify (Tape.reset · size)
  | set v => Tape.set v
  | setAt i v => Tape.setAt i v
  | add delta => Tape.add delta
  | shift delta => Tape.shift delta
  | seek target => Tape.seek target

theorem keeps_run (c : MachineConfig) (call : Tape.Call) : Keeps call.run (Tape.Configured c) := by
  have h := Tape.stable_configured c
  cases call with
  | reset size => exact fun t ht => ht.reset size
  | set v => exact h.keeps_set v
  | setAt i v => exact h.keeps_setAt i v
  | add delta => exact h.keeps_add delta
  | shift delta => exact h.keeps_shift delta
  | seek target => exact h.keeps_seek target

end Tape.Call

/-! ### Policies of machines -/

namespace Machine

theorem stable_configured (c : MachineConfig) : Stable fun m => m.tape.Configured c where
  tape _ := Tape.stable_configured c
  jump _ _ _ h := h
  program _ _ _ h := h

theorem load_eq_load {c : MachineConfig} {m m' : Machine} (h : m.tape.Configured c)
    (h' : m'.tape.Configured c) (size : Nat) (p : Program) : m.load size p = m'.load size p := by
  have hreset : m.tape.reset size = m'.tape.reset size := by
    obtain ⟨⟨cells, ptr, least, greatest, wrapCell, edge⟩, _, _, _⟩ := m
    obtain ⟨⟨cells', ptr', least', greatest', wrapCell', edge'⟩, _, _, _⟩ := m'
    obtain ⟨rfl, rfl, rfl, rfl⟩ := h
    obtain ⟨rfl, rfl, rfl, rfl⟩ := h'
    rfl
  rw [load, load, hreset]

end Machine

namespace Dialect

/-- A machine of the dialect, whatever it has been through. -/
inductive Owns (d : Dialect) : Machine → Prop where
  | new : d.Owns d.newMachine
  | run {m : Machine} (fuel : Nat) (p : Program) (stream : Stream) :
    d.Owns m → d.Owns (d.run fuel p m stream).2.machine
  | runSource {m : Machine} (fuel : Nat) (source : String) (stream : Stream) :
    d.Owns m → d.Owns (d.runSource fuel source m stream).2.machine
  | load {m : Machine} (p : Program) : d.Owns m → d.Owns (d.load p m)
  | begin {m : Machine} (stream : Stream) : d.Owns m → d.Owns (d.begin ⟨m, stream⟩).2.machine
  | step {m : Machine} (stream : Stream) : d.Owns m → d.Owns (d.step ⟨m, stream⟩).2.machine
  | finish {m : Machine} (stream : Stream) : d.Owns m → d.Owns (d.finish ⟨m, stream⟩).2.machine
  | setIp {m : Machine} (ip : Nat) : d.Owns m → d.Owns { m with ip := ip }
  | edit {m : Machine} (p : Program) : d.Owns m → d.Owns { m with program := p }
  | tape {m : Machine} (call : Tape.Call) : d.Owns m → d.Owns (onTape call.run m).2

variable {d : Dialect} {m : Machine}

theorem configured_run (hl : d.Uses Handler.isLibrary) (h : m.tape.Configured d.config) (fuel : Nat)
    (p : Program) (stream : Stream) :
    (d.run fuel p m stream).2.machine.tape.Configured d.config := by
  have hs := Machine.stable_configured d.config
  exact keeps_runLoaded (hs.keeps_begin hl) (hs.keeps_step hl fun _ h => h) (hs.keeps_finish hl)
    fuel (h.reset d.config.tapeSize)

theorem configured_of_owns (hl : d.Uses Handler.isLibrary) (h : d.Owns m) :
    m.tape.Configured d.config := by
  have hs := Machine.stable_configured d.config
  induction h with
  | new => exact Tape.configured_ofConfig d.config
  | run fuel p stream _ ih => exact configured_run hl ih fuel p stream
  | runSource fuel source stream _ ih =>
    unfold Dialect.runSource
    split
    · exact ih
    · exact configured_run hl ih fuel _ stream
  | load p _ ih => exact ih.reset d.config.tapeSize
  | begin stream _ ih => exact hs.keeps_begin hl _ ih
  | step stream _ ih => exact hs.keeps_step hl (fun _ h => h) _ ih
  | finish stream _ ih => exact hs.keeps_finish hl _ ih
  | setIp ip _ ih => exact ih
  | edit p _ ih => exact ih
  | tape call _ ih => exact call.keeps_run d.config _ ih

theorem load_of_owns (hl : d.Uses Handler.isLibrary) (hm : d.Owns m) (p : Program) :
    d.load p m = ⟨.ofConfig d.config, p, 0, 0⟩ := by
  have hnew : d.newMachine.tape.Configured d.config := Tape.configured_ofConfig d.config
  exact Machine.load_eq_load (configured_of_owns hl hm) hnew _ p

/-- A run gives the same result, writes the same output and leaves the same tape, program and
counters on a machine with any history as on a new one. -/
theorem run_eq_run_new (hl : d.Uses Handler.isLibrary) (h : d.Owns m) (fuel : Nat) (p : Program)
    (stream : Stream) : d.run fuel p m stream = d.run fuel p d.newMachine stream := by
  have hload : d.load p m = d.load p d.newMachine :=
    Machine.load_eq_load (configured_of_owns hl h) (Tape.configured_ofConfig d.config) _ p
  rw [run, run, hload]

/-- A machine that has rewritten its program, grown its tape and been left with its pointer behind
the program runs the next one as a new machine does. -/
theorem run_eq_run_new_grown :
    let d : Dialect :=
      { Catalog.utU with
        config := { tapeSize := 2, cellWidth := 3, wrapCell := true, edge := .grow }
        config_valid := ⟨by decide, by decide, by decide⟩ }
    let m := (d.run 2 #[⟨.inc, none⟩] d.newMachine {}).2.machine
    let m' := (onTape (Tape.Call.seek 6).run { m with ip := 9 }).2
    m.program = #[⟨.dec, none⟩] ∧ m'.tape.cells = #[2, 0, 0, 0, 0, 0, 0] ∧
      d.run 4 #[⟨.inc, some "a"⟩] m' {} = d.run 4 #[⟨.inc, some "a"⟩] d.newMachine {} := by
  intro d m m'
  have hl : d.Uses Handler.isLibrary := uses_of_all (by decide) rfl rfl rfl
  have hm : d.Owns m := .run 2 _ {} .new
  have hm' : d.Owns m' := .tape (.seek 6) (.setIp 9 hm)
  exact ⟨by decide, by decide, run_eq_run_new hl hm' 4 _ {}⟩

end Dialect

end TapeDialects
