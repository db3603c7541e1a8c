import TapeDialects.Proofs.Run.Agreeing
import TapeDialects.Proofs.Run.Engine
import TapeDialects.Proofs.Run.Sound
import TapeDialects.Proofs.Tape.Relaxed

/-!
# Runs under looser policies

A run that succeeds does so under looser policies as well, and comes to the same: this lifts what
`Tape.relax` says of single actions to handlers, steps and runs. A handler or hook that copies
between program and tape looks at the length of the tape, so it is left out where the tape is
longer. The loop of `drain` is bounded by that length too, but where the edge refuses it ends at a
zero before the bound, if it ends well (`transfers_drain`). The engine then adds nothing of its own:
the run agrees with that on the relaxed tape unless it faults (`alike_relax`).
-/

namespace TapeDialects

open Act

variable {c c' : MachineConfig}

/-! ### Machines -/

namespace Machine

def relax (c c' : MachineConfig) (m : Machine) : Machine := { m with tape := m.tape.relax c c' }

def Conforms (c : MachineConfig) (m : Machine) : Prop := m.tape.Conforms c

theorem transfers_onTape {x : Act Tape Unit}
    (hx : Transfers x (Tape.Conforms c) (Tape.relax c c')) :
    Transfers (onTape x) (Conforms c) (relax c c') := by
  intro m a m' hm h
  obtain ⟨t, ht, rfl⟩ := onTape_eq_iff.1 h
  obtain ⟨htc, hx'⟩ := hx m.tape a t hm ht
  exact ⟨htc, onTape_eq_iff.2 ⟨t.relax c c', hx', rfl⟩⟩

theorem transfers_jumpForward : Transfers jumpForward (Conforms c) (relax c c') := by
  intro m a m' hm h
  have hp : (m.relax c c').program = m.program := rfl
  have hi : (m.relax c c').ip = m.ip := rfl
  unfold jumpForward at h ⊢
  rw [hp, hi]
  split at h
  · cases h
    exact ⟨hm, rfl⟩
  · cases h

theorem transfers_jumpBackward : Transfers jumpBackward (Conforms c) (relax c c') := by
  intro m a m' hm h
  have hp : (m.relax c c').program = m.program := rfl
  have hi : (m.relax c c').ip = m.ip := rfl
  unfold jumpBackward at h ⊢
  rw [hp, hi]
  split at h
  · cases h
    exact ⟨hm, rfl⟩
  · cases h

variable (hc : c.Valid) (hr : c.Relaxes c')

include hc hr

theorem transfers_storeLiteral : Transfers storeLiteral (Conforms c) (relax c c') := by
  intro m a m' hm h
  have hcur : (m.relax c c').current? = m.current? := rfl
  unfold storeLiteral at h ⊢
  rw [hcur]
  split at h
  · cases h
    exact ⟨hm, rfl⟩
  · exact transfers_onTape (Tape.transfers_storeChars hc hr _) m a m' hm h

theorem transfers_greet : Transfers greet (Conforms c) (relax c c') := by
  refine transfers_bind (transfers_onTape (Tape.transfers_storeCharsAt hc hr 0 _))
    fun _ m a m' hm h => ?_
  cases h
  show Conforms c (if m.program.isEmpty then m else _) ∧
    (Except.ok (), if m.program.isEmpty then m.relax c c' else _) =
      (Except.ok (), relax c c' (if m.program.isEmpty then m else _))
  split
  · exact ⟨hm, rfl⟩
  · exact ⟨hm, rfl⟩

variable (hs : c'.tapeSize = c.tapeSize)

include hs

theorem transfers_storeProgram (table : TokenTable) :
    Transfers (storeProgram table) (Conforms c) (relax c c') :=
  transfers_of_value (fun p => onTape (Tape.storeProgram table p)) (fun m : Machine => m.program)
    (fun _ => rfl) fun p => transfers_onTape (Tape.transfers_storeProgram hc hr hs table p)

omit hc hr in
theorem transfers_readProgram (table : TokenTable) :
    Transfers (readProgram table) (Conforms c) (relax c c') := by
  intro m a m' hm h
  have hread : Program.readTape table (m.relax c c').tape = Program.readTape table m.tape := by
    funext p
    have hcells : (m.relax c c').tape.cells = m.tape.cells := Tape.cells_relax hs m.tape
    simp only [Program.readTape, Tape.used, hcells]
  rw [readProgram_apply] at h ⊢
  rw [hread]
  cases hp : Program.readTape table m.tape m.program with
  | mk r p =>
    have hp' : Program.readTape table m.tape (m.relax c c').program = (r, p) := hp
    rw [hp] at h
    cases h
    rw [hp']
    exact ⟨hm, rfl⟩

theorem transfers_resync (table : TokenTable) :
    Transfers (resync table) (Conforms c) (relax c c') :=
  transfers_bind (transfers_readProgram hs table) fun _ => transfers_storeProgram hc hr hs table

end Machine

/-! ### Sessions -/

namespace Session

def relax (c c' : MachineConfig) (s : Session) : Session :=
  { s with machine := s.machine.relax c c' }

def Conforms (c : MachineConfig) (s : Session) : Prop := s.machine.tape.Conforms c

theorem indistinct_relax (c c' : MachineConfig) : Indistinct (relax c c') where
  current _ := rfl
  ip _ := rfl
  steps _ := rfl
  ptr _ := rfl
  countStep _ := rfl

theorem cell_relax (s : Session) : (s.relax c c').cell = s.cell := Tape.get_relax s.machine.tape

theorem transfers_onMachine {x : Act Machine Unit}
    (hx : Transfers x (Machine.Conforms c) (Machine.relax c c')) :
    Transfers (onMachine x) (Conforms c) (relax c c') := by
  intro s a s' hs h
  obtain ⟨m, hm, rfl⟩ := onMachine_eq_iff.1 h
  obtain ⟨hmc, hx'⟩ := hx s.machine a m hs hm
  exact ⟨hmc, onMachine_eq_iff.2 ⟨m.relax c c', hx', rfl⟩⟩

theorem transfers_ofTape {x : Act Tape Unit}
    (hx : Transfers x (Tape.Conforms c) (Tape.relax c c')) :
    Transfers (Handler.ofTape x) (Conforms c) (relax c c') :=
  transfers_onMachine (Machine.transfers_onTape hx)

theorem transfers_onStream {α : Type} (x : Act Stream α) :
    Transfers (onStream x) (Conforms c) (relax c c') := by
  intro s a s' hs h
  obtain ⟨stream, hx, rfl⟩ := onStream_eq_iff.1 h
  exact ⟨hs, onStream_eq_iff.2 ⟨stream, hx, rfl⟩⟩

theorem transfers_put (mode : OutputMode) : Transfers (put mode) (Conforms c) (relax c c') :=
  transfers_of_value (fun v => onStream (Stream.writeValue v mode)) cell cell_relax
    fun _ => transfers_onStream _

theorem transfers_putToken (table : TokenTable) (separator : String) :
    Transfers (putToken table separator) (Conforms c) (relax c c') := by
  intro s a s' hs h
  unfold putToken at h ⊢
  rw [cell_relax]
  split at h
  · cases h
  · exact transfers_bind (transfers_onStream _) (fun _ => transfers_onStream _) s a s' hs h

theorem cell_relax_eq_zero_iff (s : Session) : (s.relax c c').cell = 0 ↔ s.cell = 0 := by
  rw [cell_relax]

theorem transfers_openLoop : Transfers openLoop (Conforms c) (relax c c') :=
  transfers_ite cell_relax_eq_zero_iff (transfers_onMachine Machine.transfers_jumpForward)
    (transfers_pure ())

theorem transfers_closeLoop : Transfers closeLoop (Conforms c) (relax c c') :=
  transfers_ite cell_relax_eq_zero_iff (transfers_pure ())
    (transfers_onMachine Machine.transfers_jumpBackward)

variable (hc : c.Valid) (hr : c.Relaxes c')

include hc hr

theorem transfers_get : Transfers get (Conforms c) (relax c c') :=
  transfers_bind (transfers_onStream Stream.readChar) fun v =>
    transfers_ofTape (Tape.transfers_set hc hr v)

theorem transfers_advance : Transfers advance (Conforms c) (relax c c') :=
  transfers_ofTape (Tape.transfers_shift hc hr 1)

theorem transfers_coreEffect (mode : OutputMode) (op : Opcode) :
    Transfers (coreEffect mode op) (Conforms c) (relax c c') := by
  cases op with
  | nxt | prv => exact transfers_ofTape (Tape.transfers_shift hc hr _)
  | inc | dec => exact transfers_ofTape (Tape.transfers_add hc hr _)
  | put => exact transfers_put mode
  | get => exact transfers_get hc hr
  | opn => exact transfers_openLoop
  | cls => exact transfers_closeLoop
  | _ => exact transfers_fail _

/-! ### The loop of `drain` -/

theorem transfers_drainCells (mode : OutputMode) (n : Nat) :
    Transfers (drainCells mode n) (Conforms c) (relax c c') := by
  induction n with
  | zero => exact transfers_pure ()
  | succ n ih =>
    exact transfers_ite cell_relax_eq_zero_iff (transfers_pure ())
      (transfers_bind (transfers_put mode) fun _ =>
        transfers_bind (transfers_advance hc hr) fun _ => ih)

/-- On a tape that refuses, the loop cannot use up a bound that leads beyond the end: it has found a
zero, and finds the same one with any greater bound. -/
theorem drainCells_relax (he : c.edge = .error) (mode : OutputMode) {n k : Nat} (hnk : n ≤ k)
    {s s' : Session} {a : Unit} (hs : s.Conforms c)
    (hn : s.machine.tape.cells.size ≤ s.machine.tape.ptr + n)
    (h : drainCells mode n s = (.ok a, s')) :
    s'.Conforms c ∧ drainCells mode k (s.relax c c') = (.ok a, s'.relax c c') := by
  induction n generalizing k s with
  | zero =>
    have := hs.ptr_lt
    omega
  | succ n ih =>
    obtain ⟨k, rfl⟩ : ∃ l, k = l + 1 := ⟨k - 1, by omega⟩
    rw [drainCells] at h ⊢
    dsimp only at h ⊢
    rw [cell_relax]
    split at h
    · next hz =>
      rw [if_pos hz]
      cases h
      exact ⟨hs, rfl⟩
    · next hz =>
      rw [if_neg hz]
      obtain ⟨_, s₁, hput, h⟩ := bind_eq_ok h
      obtain ⟨_, s₂, hadv, h⟩ := bind_eq_ok h
      obtain ⟨hs₁, hput'⟩ := transfers_put mode s _ s₁ hs hput
      obtain ⟨hs₂, hadv'⟩ := transfers_advance hc hr s₁ _ s₂ hs₁ hadv
      obtain ⟨stream, -, rfl⟩ := onStream_eq_iff.1 hput
      obtain ⟨m, hm, rfl⟩ := onMachine_eq_iff.1 hadv
      obtain ⟨t, ht, rfl⟩ := onTape_eq_iff.1 hm
      obtain ⟨hin, rfl⟩ := hs.seek_eq_ok he ht
      rw [bind_apply, hput']
      dsimp only
      rw [bind_apply, hadv']
      exact ih (by omega) hs₂ (by dsimp only; omega) h

theorem transfers_drain (mode : OutputMode) :
    Transfers (drain mode) (Conforms c) (relax c c') := by
  rcases hr.edge_of with he | ⟨-, hsize⟩
  · intro s a s' hs h
    exact drainCells_relax hc hr he mode (Tape.size_le_relax c c' s.machine.tape) hs
      (Nat.le_add_left _ _) h
  · exact transfers_of_value (drainCells mode) (fun s : Session => s.machine.tape.cells.size)
      (fun s => congrArg Array.size (Tape.cells_relax hsize s.machine.tape))
      (transfers_drainCells hc hr mode)

end Session

namespace Handler

open Session

theorem transfers_run (hc : c.Valid) (hr : c.Relaxes c') {h : Handler} (hl : h.isLibrary = true)
    (hs : c'.tapeSize = c.tapeSize ∨ (!h.isSync) = true) (d : Setting) :
    Transfers (h.run d) (Session.Conforms c) (Session.relax c c') := by
  cases h with
  | nop => exact transfers_pure ()
  | or | and | xor => exact transfers_ofTape (Tape.transfers_combine hc hr _)
  | not => exact transfers_ofTape (Tape.transfers_complement hc hr _)
  | shl => exact transfers_ofTape (Tape.transfers_shiftLeft hc hr)
  | shr => exact transfers_ofTape (Tape.transfers_shiftRight hc hr)
  | njm => exact transfers_ofTape (Tape.transfers_jumpRight hc hr)
  | pjm => exact transfers_ofTape (Tape.transfers_jumpLeft hc hr)
  | zro => exact transfers_ofTape (Tape.transfers_set hc hr 0)
  | hom => exact transfers_ofTape (Tape.transfers_seek hc hr 0)
  | buf => exact transfers_onMachine (Machine.transfers_storeLiteral hc hr)
  | putAdvance => exact transfers_bind (transfers_put _) fun _ => transfers_advance hc hr
  | getAdvance => exact transfers_bind (transfers_get hc hr) fun _ => transfers_advance hc hr
  | putToken => exact transfers_putToken _ _
  | jumpForward => exact transfers_onMachine Machine.transfers_jumpForward
  | jumpBackward => exact transfers_onMachine Machine.transfers_jumpBackward
  | storeProgram =>
    have hsize := hs.resolve_right (by decide)
    exact transfers_onMachine (Machine.transfers_storeProgram hc hr hsize _)
  | resync =>
    have hsize := hs.resolve_right (by decide)
    exact transfers_onMachine (Machine.transfers_resync hc hr hsize _)
  | greet => exact transfers_onMachine (Machine.transfers_greet hc hr)
  | drain => exact transfers_drain hc hr _
  | custom effect => contradiction

end Handler

/-! ### Runs -/

namespace Dialect

variable {d d' : Dialect} {s s' : Session}

section

variable (hl : d.Uses Handler.isLibrary) (hr : d.config.Relaxes c')
  (hs : c'.tapeSize = d.config.tapeSize ∨ d.Uses fun h => !h.isSync)

include hl hr hs

theorem transfers_effect (op : Opcode) :
    Transfers (d.effect op) (Session.Conforms d.config) (Session.relax d.config c') := by
  unfold effect
  split
  · next h hh =>
    exact Handler.transfers_run d.config_valid hr (hl.handlers op h hh)
      (hs.imp_right fun hu => hu.handlers op h hh) _
  · exact Session.transfers_coreEffect d.config_valid hr _ op

theorem transfers_runHook {hook : Option Handler}
    (hh : ∀ kind, d.Uses kind → ∀ h ∈ hook, kind h = true) :
    Transfers (d.runHook hook) (Session.Conforms d.config) (Session.relax d.config c') := by
  cases hook with
  | none => exact transfers_pure ()
  | some h =>
    exact Handler.transfers_run d.config_valid hr (hh _ hl h rfl)
      (hs.imp_right fun hu => hh _ hu h rfl) _

theorem alike_relax :
    d.Alike (Session.Conforms d.config) (Session.relax d.config c') fun _ => True where
  effect op := transfers_iff_agrees.1 (transfers_effect hl hr hs op)
  preRun := transfers_iff_agrees.1 (transfers_runHook hl hr hs fun _ hu => hu.preRun)
  step := transfers_iff_agrees.1 (transfers_runHook hl hr hs fun _ hu => hu.step)
  postRun := transfers_iff_agrees.1 (transfers_runHook hl hr hs fun _ hu => hu.postRun)
  flush := transfers_iff_agrees.1 (Session.transfers_onStream _)
  countStep _ hc := hc

theorem runLoaded_relax {fuel n : Nat} (hc : s.Conforms d.config)
    (h : d.runLoaded fuel s = (some (.ok n), s')) :
    d.runLoaded fuel (s.relax d.config c') = (some (.ok n), s'.relax d.config c') := by
  rcases agrees_runLoaded (Session.indistinct_relax _ c') (alike_relax hl hr hs) fuel hc with
    ⟨e, t, ht, -⟩ | ⟨r, t, ht, -, hx⟩
  · cases h.symm.trans ht
  · cases h.symm.trans ht
    exact hx

end

theorem withConfig_eq_ok (h : d.withConfig c' = .ok d') :
    d'.config = c' ∧ d'.table = d.table ∧ d'.surface = d.surface ∧ d'.handlers = d.handlers ∧
      d'.hooks = d.hooks := by
  unfold withConfig at h
  split at h
  · contradiction
  · cases h
    exact ⟨rfl, rfl, rfl, rfl, rfl⟩

theorem uses_of_withConfig {kind : Handler → Bool} (hu : d.Uses kind)
    (h : d.withConfig c' = .ok d') : d'.Uses kind := by
  obtain ⟨-, -, -, hh, hk⟩ := withConfig_eq_ok h
  exact hu.of_eq hh hk

theorem sameEngine_of_withConfig (hl : d.Uses Handler.isLibrary) (hr : d.config.Relaxes c')
    (h : d.withConfig c' = .ok d') : d.SameEngine d' := by
  obtain ⟨hc, ht, hs, hh, hk⟩ := withConfig_eq_ok h
  have hd : d.toSetting.SameCode d'.toSetting :=
    ⟨by rw [hc, hr.signedCell_eq], by rw [hc, hr.output_eq], by rw [ht]⟩
  exact sameEngine_of_uses hl (fun _ hg => Handler.run_congr hg hd (.inr ⟨ht.symm, hs.symm⟩))
    hd.output hh hk

/-- A run that succeeds does so under looser policies too, in the same number of steps and with the
same output, program and pointers; the tape is the same up to zeros behind its end. -/
theorem run_of_relaxes (hl : d.Uses Handler.isLibrary) (hr : d.config.Relaxes c')
    (hs : c'.tapeSize = d.config.tapeSize ∨ d.Uses fun h => !h.isSync)
    (hd : d.withConfig c' = .ok d') {t u : Session} (ht : d.Reaches t) (hu : d'.Reaches u)
    {fuel n : Nat} {p : Program} {stream : Stream}
    (h : d.run fuel p t.machine stream = (some (.ok n), s)) :
    ∃ s', d'.run fuel p u.machine stream = (some (.ok n), s') ∧ s'.stream = s.stream ∧
      s'.machine.program = s.machine.program ∧ s'.machine.ip = s.machine.ip ∧
      s'.machine.tape.ptr = s.machine.tape.ptr ∧
      s'.machine.tape.cells =
        s.machine.tape.cells ++ Array.replicate (c'.tapeSize - d.config.tapeSize) 0 := by
  obtain ⟨hc, -⟩ := withConfig_eq_ok hd
  have hts := sound_of_reaches hl ht
  have hus := sound_of_reaches (uses_of_withConfig hl hd) hu
  have hload : d'.load p u.machine = (d.load p t.machine).relax d.config c' := by
    have htape := Tape.reset_relax hr hts.conforms.toConfigured (hc ▸ hus.conforms.toConfigured)
    rw [load, Machine.load, hc, ← htape]
    rfl
  have hloaded : Session.Conforms d.config ⟨d.load p t.machine, stream⟩ :=
    hts.conforms.conforms_reset d.config_valid
  have hrun := runLoaded_relax hl hr hs hloaded h
  refine ⟨s.relax d.config c', ?_, rfl, rfl, rfl, rfl, rfl⟩
  rw [run, hload, ← (sameEngine_of_withConfig hl hr hd).runLoaded_eq]
  · exact hrun
  · rw [hc, hr.stepLimit_eq]

/-- The dialect with a greeting on a tape that the greeting fills up to one zero. -/
def shortBraincrash : Dialect :=
  { Catalog.braincrash with
    config := { tapeSize := 14 }
    config_valid := ⟨by decide, by decide, by decide⟩ }

def roundConfig : MachineConfig := { tapeSize := 20, wrapCell := true, edge := .wrap }

/-- The program steps back from the zero, and `drain` writes the end of the greeting. -/
theorem run_of_relaxes_greeting :
    let p : Program := #[⟨.prv, none⟩]
    ∃ d' s s', shortBraincrash.withConfig roundConfig = .ok d' ∧
      shortBraincrash.run 15 p shortBraincrash.newMachine {} = (some (.ok 14), s) ∧
      d'.run 15 p d'.newMachine {} = (some (.ok 14), s') ∧
      s'.stream.sink.written = #[33] ∧
      s'.machine.tape.cells = s.machine.tape.cells ++ Array.replicate 6 0 := by
  intro p
  have hresult : (shortBraincrash.run 15 p shortBraincrash.newMachine {}).1 = some (.ok 14) := by
    decide +kernel
  have hwritten :
      (shortBraincrash.run 15 p shortBraincrash.newMachine {}).2.stream.sink.written = #[33] := by
    decide +kernel
  have hok : (shortBraincrash.withConfig roundConfig).isOk = true := by decide
  have hr : shortBraincrash.config.Relaxes roundConfig :=
    ⟨rfl, rfl, rfl, rfl, by decide, .inl rfl, by decide⟩
  have hn : shortBraincrash.Reaches ⟨shortBraincrash.newMachine, {}⟩ := .new {}
  cases hs : shortBraincrash.run 15 p shortBraincrash.newMachine {} with
  | mk r s =>
    rw [hs] at hresult hwritten
    obtain rfl : r = some (.ok 14) := hresult
    cases hd : shortBraincrash.withConfig roundConfig with
    | error e =>
      rw [hd] at hok
      cases hok
    | ok d' =>
      have hn' : d'.Reaches ⟨d'.newMachine, {}⟩ := .new {}
      obtain ⟨s', hrun', hstream, -, -, -, hcells⟩ :=
        run_of_relaxes (uses_of_all rfl rfl rfl rfl) hr (.inr (uses_of_all rfl rfl rfl rfl)) hd
          hn hn' hs
      exact ⟨d', s, s', rfl, rfl, hrun', hstream ▸ hwritten, hcells⟩

end Dialect

end TapeDialects
