import TapeDialects.Proofs.Act.Raises
import TapeDialects.Proofs.Machine.Resync
import TapeDialects.Proofs.Program.Compiling
import TapeDialects.Proofs.Run.Sound

/-!
# The self-modifying dialect

A program of Ut_U lies on the tape as well: the cells hold the positions of its opcodes. A step may
change any cell, and with it an instruction, or write behind the program and so lengthen it. What
carries over from step to step is `Synced`: the machine is sound, the opcodes of its program are in
the table, and code and data are in lockstep. The invariant holds because each of the eight values
of a cell is the position of an opcode, so a program can always be read from the tape, and because
reading it makes the program follow the tape.

An effect never touches the program, so between a step's effect and its hook only the tape can have
changed (`UtUEffect.keeps_program`).
-/

namespace TapeDialects

/-- The faults that can stop a program of the self-modifying dialect. -/
inductive Fault.OfSelfModifying : Fault → Prop where
  | pointerOutOfRange (target : Int) (cells : Nat) :
    OfSelfModifying (.pointerOutOfRange target cells)
  | unmatchedBracket (direction : Direction) : OfSelfModifying (.unmatchedBracket direction)
  | stream (text : String) : OfSelfModifying (.stream text)

inductive Error.OfSelfModifying : Error → Prop where
  | runtime {f : Fault} (l : Location) : f.OfSelfModifying → OfSelfModifying (.runtime f l)

namespace Catalog

open Act TokenTable

variable {s : Session} {m : Machine} {t : Tape} {p : Program}

theorem utU_uses_library : utU.Uses Handler.isLibrary := Dialect.uses_of_all rfl rfl rfl rfl

/-! ### Cells and opcodes -/

theorem utU_cellRange : utU.config.cellMin = 0 ∧ utU.config.cellMax = 7 := by decide

theorem utU_denotes {v : Int} (hv : utU.config.cellMin ≤ v ∧ v ≤ utU.config.cellMax) :
    ∃ op, utU.table.Denotes v op := by
  obtain ⟨hmin, hmax⟩ := utU_cellRange
  have hall : ∀ k < 8, (utU.table.opcodeAt? k).isSome = true := by decide
  obtain ⟨op, ho⟩ := Option.isSome_iff_exists.1 (hall v.toNat (by omega))
  exact ⟨op, v.toNat, position?_eq_some_iff.2 ho, by omega⟩

theorem utU_fit (ht : t.Conforms utU.config) {k : Nat} (hk : k < utU.table.size) :
    t.fit k = .ok (k : Int) := by
  obtain ⟨hmin, hmax⟩ := utU_cellRange
  have hsize : utU.table.size = 8 := rfl
  exact Tape.fit_of_mem ⟨by rw [ht.least_eq]; omega, by rw [ht.greatest_eq]; omega⟩

theorem known_of_compile {source : String} (h : utU.compile source = .ok p) : p.Known utU.table :=
  fun _ hx => (Setting.read_of_compile rfl h hx).1

/-! ### Effects -/

inductive UtUEffect : Act Session Unit → Prop where
  | nop : UtUEffect (pure ())
  | add (delta : Int) : UtUEffect (Handler.ofTape (Tape.add delta))
  | shift (delta : Int) : UtUEffect (Handler.ofTape (Tape.shift delta))
  | put : UtUEffect (Session.putToken utU.table utU.surface.separator)
  | opn : UtUEffect Session.openLoop
  | cls : UtUEffect Session.closeLoop

theorem utUEffect_of_mem {op : Opcode} (ho : op ∈ utU.table.opcodes) :
    UtUEffect (utU.effect op) := by
  have hops : op ∈ [Opcode.nop, .inc, .dec, .nxt, .prv, .put, .opn, .cls] := ho
  simp only [List.mem_cons, List.not_mem_nil, or_false] at hops
  rcases hops with rfl | rfl | rfl | rfl | rfl | rfl | rfl | rfl
  · exact .nop
  · exact .add 1
  · exact .add (-1)
  · exact .shift 1
  · exact .shift (-1)
  · exact .put
  · exact .opn
  · exact .cls

/-- Between the effect of a step and its hook only the tape can have changed. -/
theorem UtUEffect.keeps_program {x : Act Session Unit} (hx : UtUEffect x) (p : Program) :
    Keeps x fun s => s.machine.program = p := by
  intro s h
  cases hx with
  | nop => exact h
  | add delta => exact h
  | shift delta => exact h
  | put =>
    unfold Session.putToken
    split
    · exact h
    · have write (text : String) :
          Keeps (onStream (Stream.writeText text)) fun s => s.machine.program = p :=
        fun _ hs => hs
      exact keeps_bind (write _) (fun _ => write _) s h
  | opn =>
    unfold Session.openLoop
    split
    · exact keeps_onMachine (Machine.jumps_jumpForward.keeps_program p) s h
    · exact h
  | cls =>
    unfold Session.closeLoop
    split
    · exact h
    · exact keeps_onMachine (Machine.jumps_jumpBackward.keeps_program p) s h

theorem UtUEffect.ofSelfModifying {x : Act Session Unit} (hx : UtUEffect x)
    (hs : s.machine.tape.Conforms utU.config) {f : Fault} (h : (x s).1 = .error f) :
    f.OfSelfModifying := by
  cases hx with
  | nop => contradiction
  | add delta =>
    -- Cells wrap around, so every value fits.
    obtain ⟨w, hw⟩ := hs.exists_fit rfl (s.machine.tape.get + delta)
    have hset : (Tape.set (s.machine.tape.get + delta) s.machine.tape).1 = .error f := h
    rw [Tape.set_apply_ok hw] at hset
    contradiction
  | shift delta => exact Tape.raises_shift .pointerOutOfRange delta s.machine.tape f h
  | put =>
    obtain ⟨op, hd⟩ := utU_denotes hs.get_mem
    have hop : utU.table.opcodeOfCell? s.cell = some op := opcodeOfCell?_eq_some_iff.2 hd
    have htoken := tokenOf_zero (mem_opcodes_of_denotes hd)
    have hwrite (text : String) : (onStream (Stream.writeText text)).Raises Fault.OfSelfModifying :=
      raises_onStream (Stream.raises_writeBytes .stream _)
    unfold Session.putToken at h
    rw [hop, Option.bind_some, htoken] at h
    exact raises_bind (hwrite _) (fun _ => hwrite _) s f h
  | opn =>
    unfold Session.openLoop at h
    split at h
    · exact raises_onMachine (Machine.jumps_jumpForward.raises .unmatchedBracket) s f h
    · contradiction
  | cls =>
    unfold Session.closeLoop at h
    split at h
    · contradiction
    · exact raises_onMachine (Machine.jumps_jumpBackward.raises .unmatchedBracket) s f h

/-! ### Steps -/

/-- What carries over from step to step: a sound machine, known opcodes, and code and data in
lockstep. -/
structure Synced (s : Session) : Prop where
  sound : s.Sound utU.config 0
  known : s.machine.program.Known utU.table
  lockstep : s.machine.InLockstep utU.table

/-- The hook behind a step succeeds whatever the step has written, and restores the lockstep. -/
theorem utU_resync (hm : m.tape.Conforms utU.config) (hk : m.program.Known utU.table) :
    ∃ p, Machine.resync utU.table m = (.ok (), { m with program := p }) ∧ p.Known utU.table ∧
      Machine.InLockstep utU.table { m with program := p } := by
  have hn : ∀ i v, ¬m.Stray utU.table i v := fun i v h =>
    h.not_position <| TokenTable.exists_denotes_iff.1 <|
      utU_denotes (hm.cells_mem v (Array.mem_of_getElem? h.get?_eq))
  obtain ⟨p, hr, -, hl, -⟩ := Machine.resync_of_not_stray hm hn
  have hp := Machine.keeps_resync_known utU.table m hk
  rw [hr] at hp
  exact ⟨p, hr, hp, hl⟩

theorem leads_effect_utU {op : Opcode} (ho : op ∈ utU.table.opcodes) :
    Leads (utU.effect op) (fun s => s.Sound utU.config 1 ∧ s.machine.program.Known utU.table)
      (fun s => s.Sound utU.config 1 ∧ s.machine.program.Known utU.table)
      fun f _ => f.OfSelfModifying := by
  intro s ⟨hs, hk⟩
  have hx := utUEffect_of_mem ho
  have hprogram := hx.keeps_program s.machine.program s rfl
  have hsound := Dialect.keeps_effect utU_uses_library (Nat.le_refl 1) op s hs
  cases hr : utU.effect op s with
  | mk r s' =>
    rw [hr] at hprogram hsound
    cases r with
    | error f => exact hx.ofSelfModifying hs.conforms (by rw [hr])
    | ok u => exact ⟨hsound, show s'.machine.program.Known utU.table from hprogram ▸ hk⟩

theorem leads_hook_utU :
    Leads (utU.runHook utU.hooks.step)
      (fun s => s.Sound utU.config 0 ∧ s.machine.program.Known utU.table) Synced
      fun f _ => f.OfSelfModifying := by
  intro s ⟨hs, hk⟩
  obtain ⟨p, hp, hkp, hl⟩ := utU_resync hs.conforms hk
  have hhook : utU.runHook utU.hooks.step s =
      (.ok (), { s with machine := { s.machine with program := p } }) :=
    onMachine_eq_iff.2 ⟨_, hp, rfl⟩
  have hsound := Dialect.keeps_runHook utU_uses_library.step (Nat.zero_le 1) s hs
  rw [hhook] at hsound ⊢
  exact ⟨hsound, hkp, hl⟩

theorem leads_step_utU : Leads utU.step Synced Synced fun e _ => e.OfSelfModifying := by
  have located {x : Act Session Unit} {P R : Session → Prop} (op : Opcode) (ip : Nat)
      (hx : Leads x P R fun f _ => f.OfSelfModifying) :
      Leads x P R fun f s =>
        (Error.runtime f ⟨some op, ip, s.machine.tape.ptr⟩).OfSelfModifying :=
    fun s hs => (hx s hs).imp (fun _ h => h) fun _ _ h => .runtime _ h
  refine Dialect.leads_step (fun _ _ _ _ h => by cases h) fun s i h hi => ?_
  have hm : i ∈ s.machine.program := Array.mem_of_getElem? hi
  have hip : s.machine.ip < s.machine.program.size := (Array.getElem?_eq_some_iff.1 hi).1
  exact Dialect.leads_execute (located _ _ (leads_effect_utU (h.known i hm)))
    (fun s' hs' => ⟨⟨hs'.1.conforms, hs'.1.ip_le⟩, hs'.2⟩) (located _ _ leads_hook_utU) s
    ⟨⟨h.sound.conforms, hip⟩, h.known⟩

/-! ### Runs -/

theorem utU_begin (m : Machine) (stream : Stream) :
    utU.begin ⟨m, stream⟩ =
      Act.locatedOutside (onMachine (Machine.storeProgram utU.table)) ⟨m, stream⟩ := rfl

theorem synced_begin (hm : m.tape.Conforms utU.config) (hk : p.Known utU.table)
    (stream : Stream) :
    ∃ s, utU.begin ⟨utU.load p m, stream⟩ = (.ok (), s) ∧ Synced s := by
  have hload : (utU.load p m).tape.Conforms utU.config := hm.conforms_reset utU.config_valid
  have hprogram : (utU.load p m).program.Known utU.table := hk
  have hip : (utU.load p m).ip = 0 := rfl
  have hzero : ∀ v ∈ (utU.load p m).tape.cells, v = 0 :=
    fun v hv => (Array.mem_replicate.1 hv).2
  generalize utU.load p m = m' at hload hprogram hip hzero ⊢
  obtain ⟨cells, hs, hl⟩ := Machine.storeProgram_ok hprogram (fun _ => utU_fit hload)
    fun i v _ hv => hzero v (Array.mem_of_getElem? hv)
  have hb : utU.begin ⟨m', stream⟩ =
      (.ok (), ⟨{ m' with tape := { m'.tape with cells := cells } }, stream⟩) := by
    refine (utU_begin m' stream).trans (locatedOutside_ok ?_)
    rw [onMachine_apply, hs]
  have hsound := Dialect.keeps_begin utU_uses_library ⟨m', stream⟩ ⟨hload, by simp [hip]⟩
  rw [hb] at hsound
  exact ⟨_, hb, hsound, hprogram, hl⟩

theorem leads_finish_utU :
    Leads utU.finish Synced (fun _ => True) fun e _ => e.OfSelfModifying := by
  have hflush : (onStream Stream.flush).Raises Fault.OfSelfModifying :=
    raises_onStream (Stream.raises_flush .stream)
  refine leads_bind (R := fun _ => True) (leads_locatedOutside fun _ _ => trivial)
    fun _ => leads_locatedOutside fun s _ => ?_
  cases hr : onStream Stream.flush s with
  | mk r s' =>
    cases r with
    | error f => exact .runtime _ (hflush s f (by rw [hr]))
    | ok u => trivial

/-- Every source text is a program, and code and data are in lockstep behind its first hook and
behind each of its steps. Nothing but the pointer, a bracket or the stream can stop it. -/
theorem inLockstep_of_run {t : Session} (ht : utU.Reaches t) (source : String) (stream : Stream) :
    ∃ p s, utU.compile source = .ok p ∧
      utU.begin ⟨utU.load p t.machine, stream⟩ = (.ok (), s) ∧
      (∀ n s', utU.steps n s = (none, s') ∨ utU.steps n s = (some (.ok ()), s') →
        s'.machine.InLockstep utU.table) ∧
      ∀ fuel e s', utU.runSource fuel source t.machine stream = (some (.error e), s') →
        e.OfSelfModifying := by
  obtain ⟨p, hp⟩ := Setting.compile_of_no_regions (d := utU.toSetting) rfl rfl source
  have hsound := Dialect.sound_of_reaches utU_uses_library ht
  obtain ⟨s, hs, hsync⟩ := synced_begin hsound.conforms (known_of_compile hp) stream
  refine ⟨p, s, hp, hs, fun n s' hn => ?_, fun fuel e s' hr => ?_⟩
  · have h := Dialect.leads_steps leads_step_utU n hsync
    rcases hn with hn | hn
    · rw [hn] at h
      exact h.lockstep
    · rw [hn] at h
      exact h.lockstep
  · rw [Dialect.runSource, hp] at hr
    dsimp only at hr
    rw [Dialect.run] at hr
    generalize Session.mk (utU.load p t.machine) stream = s₀ at hs hr
    have hbegin : Leads utU.begin (· = s₀) Synced fun e _ => e.OfSelfModifying := by
      rintro _ rfl
      rw [hs]
      exact hsync
    have h := Dialect.leads_runLoaded hbegin leads_step_utU leads_finish_utU fuel rfl
    rw [hr] at h
    exact h

/-- Also on a machine on which another program was run, here one that the edge of the tape stops. -/
theorem inLockstep_of_run_again :
    let t := (utU.run 1 #[⟨.prv, none⟩] utU.newMachine {}).2
    utU.Reaches t ∧ ∃ p s, utU.compile "ハイ、ターッチ うっうー" = .ok p ∧
      utU.begin ⟨utU.load p t.machine, {}⟩ = (.ok (), s) ∧ s.machine.InLockstep utU.table := by
  intro t
  have hn : utU.Reaches ⟨utU.newMachine, {}⟩ := .new {}
  have ht : utU.Reaches t := Dialect.reaches_run hn 1 #[⟨.prv, none⟩] {}
  obtain ⟨p, s, hp, hs, hl, -⟩ := inLockstep_of_run ht "ハイ、ターッチ うっうー" {}
  exact ⟨ht, p, s, hp, hs, hl 0 s (.inl rfl)⟩

end Catalog

end TapeDialects
