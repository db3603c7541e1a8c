import TapeDialects.Catalog
import TapeDialects.Proofs.Machine.Jump
import TapeDialects.Proofs.Run.Sound
import TapeDialects.Proofs.Tape.Bitwise

/-!
# Atomic instructions

An instruction that fails leaves the machine as it was, so that the fault can be reported where it
happened. `Act.Atomic x P view` says so of an action: from a state with `P`, a fault changes nothing
that `view` shows. Input and output are not shown, for what has been read and written is gone.

Most effects store one value or move the pointer once, and each of these is atomic by itself. The
operations on two cells move first and store then. They are atomic because what they store always
fits, so the move is all that can fail.
-/

namespace TapeDialects

namespace Act

variable {σ τ α β : Type} {P : σ → Prop} {view : σ → τ}

def Atomic (x : Act σ α) (P : σ → Prop) (view : σ → τ) : Prop :=
  ∀ s f s', P s → x s = (.error f, s') → view s' = view s

theorem atomic_pure (a : α) : Atomic (pure a) P view := by
  intro s f s' _ h
  rw [pure_apply] at h
  cases h

theorem atomic_fail (f : Fault) : Atomic (fail f : Act σ α) P view := by
  intro s g s' _ h
  cases h
  rfl

theorem atomic_ite {p : σ → Prop} [DecidablePred p] {x y : Act σ α} (hx : Atomic x P view)
    (hy : Atomic y P view) : Atomic (fun s => if p s then x s else y s) P view := by
  intro s f s' hs h
  dsimp only at h
  split at h
  · exact hx s f s' hs h
  · exact hy s f s' hs h

theorem atomic_ofTape {P : Tape → Prop} {x : Act Tape Unit} (hx : Atomic x P id) :
    Atomic (Handler.ofTape x) (fun s => P s.machine.tape) Session.machine := by
  intro s f s' hs h
  obtain ⟨m, hm, rfl⟩ := onMachine_eq_iff.1 h
  obtain ⟨t, ht, rfl⟩ := onTape_eq_iff.1 hm
  have hid : t = s.machine.tape := hx s.machine.tape f t hs ht
  rw [hid]

theorem atomic_onMachine {P : Session → Prop} {x : Act Machine α}
    (hx : Atomic x (fun _ => True) id) : Atomic (onMachine x) P Session.machine := by
  intro s f s' _ h
  obtain ⟨m, hm, rfl⟩ := onMachine_eq_iff.1 h
  exact hx s.machine f m trivial hm

theorem atomic_onStream {P : Session → Prop} (x : Act Stream α) :
    Atomic (onStream x) P Session.machine := by
  intro s f s' _ h
  obtain ⟨_, _, rfl⟩ := onStream_eq_iff.1 h
  rfl

/-- What reads or writes first leaves the machine to what comes behind. -/
theorem atomic_onStream_bind {P : Machine → Prop} (x : Act Stream α) {f : α → Act Session β}
    (hf : ∀ a, Atomic (f a) (fun s => P s.machine) Session.machine) :
    Atomic (onStream x >>= f) (fun s => P s.machine) Session.machine := by
  intro s e s' hs h
  rw [bind_apply] at h
  cases hx : onStream x s with
  | mk r s₁ =>
    obtain ⟨stream, _, rfl⟩ := onStream_eq_iff.1 hx
    rw [hx] at h
    cases r with
    | error e' =>
      cases h
      rfl
    | ok a => exact hf a ⟨s.machine, stream⟩ e s' hs h

end Act

open Act

/-! ### Tapes -/

namespace Tape

variable {P : Tape → Prop}

theorem atomic_set (v : Int) : Atomic (set v) P id := fun _ _ _ _ h => (set_eq_error h).1

theorem atomic_add (delta : Int) : Atomic (add delta) P id := fun t => atomic_set _ t

theorem atomic_seek (target : Int) : Atomic (seek target) P id :=
  fun _ _ _ _ h => (seek_eq_error h).1

theorem atomic_shift (delta : Int) : Atomic (shift delta) P id := fun t => atomic_seek _ t

/-- The pointer has moved by the time the value is stored, but the store does not fail. -/
theorem atomic_combine {c : MachineConfig} (hc : c.Valid) {g : Int → Int → Int}
    {op : BitVec c.cellWidth → BitVec c.cellWidth → BitVec c.cellWidth} (hg : c.Computes g op) :
    Atomic (combine g) (Conforms c) id := by
  intro t f t' ht h
  rw [ht.combine_apply hc hg] at h
  split at h
  · cases h
  · next hm =>
    cases h
    exact atomic_shift 1 t f t' ht hm

end Tape

/-! ### Instructions -/

namespace Machine

theorem Jumps.atomic {x : Act Machine Unit} (hx : Jumps x) : Atomic x (fun _ => True) id := by
  intro m f m' _ h
  rcases hx m with ⟨_, _, he⟩ | ⟨_, he⟩
  · rw [he] at h
    cases h
  · rw [he] at h
    cases h
    rfl

end Machine

/-- The standard effect of every opcode but the one that writes a literal, which has written the
characters in front of the one that does not fit. -/
theorem Handler.atomic_run {d : Setting} (hc : d.config.Valid) {op : Opcode} {h : Handler}
    (hop : standard? op = some h) (hb : op ≠ .buf) :
    Atomic (h.run d) (fun s => s.machine.tape.Conforms d.config) Session.machine := by
  cases op with
  | buf => contradiction
  | nop | endBuf | com | endCom =>
    cases hop
    exact atomic_pure ()
  | or =>
    cases hop
    exact atomic_ofTape (Tape.atomic_combine hc hc.computes_bitOr)
  | and =>
    cases hop
    exact atomic_ofTape (Tape.atomic_combine hc hc.computes_bitAnd)
  | xor =>
    cases hop
    exact atomic_ofTape (Tape.atomic_combine hc hc.computes_bitXor)
  | not | shl | shr =>
    cases hop
    exact atomic_ofTape fun t => Tape.atomic_set _ t
  | njm | pjm =>
    cases hop
    exact atomic_ofTape fun t => Tape.atomic_shift _ t
  | zro =>
    cases hop
    exact atomic_ofTape (Tape.atomic_set 0)
  | hom =>
    cases hop
    exact atomic_ofTape (Tape.atomic_seek 0)
  | _ => cases hop

theorem Session.atomic_put {P : Session → Prop} (mode : OutputMode) :
    Atomic (put mode) P Session.machine :=
  fun s => atomic_onStream (Stream.writeValue s.cell mode) s

theorem Session.atomic_coreEffect (c : MachineConfig) (mode : OutputMode) (op : Opcode) :
    Atomic (coreEffect mode op) (fun s => s.machine.tape.Conforms c) Session.machine := by
  cases op with
  | nxt | prv => exact atomic_ofTape (Tape.atomic_shift _)
  | inc | dec => exact atomic_ofTape (Tape.atomic_add _)
  | put => exact atomic_put mode
  | get =>
    exact atomic_onStream_bind (P := fun m => m.tape.Conforms c) Stream.readChar
      fun v => atomic_ofTape (Tape.atomic_set v)
  | opn => exact atomic_ite (atomic_onMachine Machine.jumps_jumpForward.atomic) (atomic_pure ())
  | cls => exact atomic_ite (atomic_pure ()) (atomic_onMachine Machine.jumps_jumpBackward.atomic)
  | _ => exact atomic_fail _

/-! ### Steps -/

namespace Dialect

variable {d : Dialect} {s s' : Session} {i : Instruction} {e : Error}

theorem atomic_effect {op : Opcode} (hb : op ≠ .buf) (hh : d.handler? op = Handler.standard? op) :
    Atomic (d.effect op) (fun s => s.machine.tape.Conforms d.config) Session.machine := by
  unfold effect
  split
  · next h hop => exact Handler.atomic_run d.config_valid (hh ▸ hop) hb
  · exact Session.atomic_coreEffect d.config d.config.output op

/-- A step that fails leaves the machine as it was, and the fault is located there. So it is for
every instruction that has its standard effect, which for an opcode of the core is the one without
a handler, and that writes no literal. -/
theorem machine_eq_of_step_error (hk : d.hooks.step = none) (hs : s.Sound d.config 0)
    (hi : s.machine.current? = some i) (hb : i.op ≠ .buf)
    (hh : d.handler? i.op = Handler.standard? i.op) (h : d.step s = (.error e, s')) :
    s'.machine = s.machine ∧
      ∃ f, e = .runtime f ⟨some i.op, s.machine.ip, s.machine.tape.ptr⟩ := by
  unfold step at h
  rw [hi] at h
  dsimp only at h
  split at h
  · -- The limit of steps is looked at before the instruction does anything.
    cases h
    exact ⟨rfl, _, rfl⟩
  · rw [execute_apply, hk] at h
    cases hx : d.effect i.op s with
    | mk r s₁ =>
      rw [hx] at h
      cases r with
      | ok u => cases h
      | error f =>
        have hm : s₁.machine = s.machine := atomic_effect hb hh s f s₁ hs.conforms hx
        cases h
        exact ⟨hm, f, by rw [hm]⟩

/-- The dialect with all standard effects on a tape of three narrow cells. -/
def shortCommdis : Dialect :=
  { Catalog.commdis with
    config := { tapeSize := 3 }
    config_valid := ⟨by decide, by decide, by decide⟩ }

/-- Its machine in front of an instruction, the pointer on the last cell. -/
def atLastCell (op : Opcode) (input : List UInt8) : Session :=
  ⟨⟨{ Tape.ofConfig shortCommdis.config with ptr := 2 }, #[{ op }], 0, 0⟩, Stream.ofBytes input⟩

theorem sound_atLastCell (op : Opcode) (input : List UInt8) :
    (atLastCell op input).Sound shortCommdis.config 0 :=
  ⟨(Tape.conforms_ofConfig shortCommdis.config_valid).movePtr (by decide), Nat.zero_le _⟩

/-- A character that does not fit has been read, and an operation has no next cell to go to. -/
theorem machine_eq_of_step_error_atLastCell :
    let get := atLastCell .get [0xe3, 0x81, 0x82]
    let or := atLastCell .or []
    let afterGet := (shortCommdis.step get).2
    let afterOr := (shortCommdis.step or).2
    shortCommdis.hooks.step = none ∧
    get.Sound shortCommdis.config 0 ∧ or.Sound shortCommdis.config 0 ∧
    get.machine.current? = some { op := .get } ∧ or.machine.current? = some { op := .or } ∧
    shortCommdis.handler? .get = Handler.standard? .get ∧
    shortCommdis.handler? .or = Handler.standard? .or ∧
    shortCommdis.step get =
      (.error (.runtime (.cellOverflow 12354 0 255) ⟨some .get, 0, 2⟩), afterGet) ∧
    afterGet.machine = get.machine ∧ afterGet.stream.unread = [] ∧
    shortCommdis.step or =
      (.error (.runtime (.pointerOutOfRange 3 3) ⟨some .or, 0, 2⟩), afterOr) ∧
    afterOr.machine = or.machine := by
  intro get or afterGet afterOr
  have hg : shortCommdis.step get =
      (.error (.runtime (.cellOverflow 12354 0 255) ⟨some .get, 0, 2⟩), afterGet) := rfl
  have ho : shortCommdis.step or =
      (.error (.runtime (.pointerOutOfRange 3 3) ⟨some .or, 0, 2⟩), afterOr) := rfl
  obtain ⟨hget, -⟩ :=
    machine_eq_of_step_error rfl (sound_atLastCell .get _) rfl (by decide) rfl hg
  obtain ⟨hor, -⟩ :=
    machine_eq_of_step_error rfl (sound_atLastCell .or _) rfl (by decide) rfl ho
  exact ⟨rfl, sound_atLastCell _ _, sound_atLastCell _ _, rfl, rfl, rfl, rfl, hg, hget, rfl, ho,
    hor⟩

end Dialect

end TapeDialects
