import TapeDialects.Dialect.Run
import TapeDialects.Proofs.Act.Keeps
import TapeDialects.Proofs.Act.Raises
import TapeDialects.Proofs.Dialect.Uses

/-!
# Local actions

The effect of an operation is local: it works on the tape and the stream, looks at no more of
the program than the instruction under the pointer, and leaves the program and both counters
alone. The same instruction therefore has the same effect wherever it stands in a program.
`Dialect.local_effect` says so of every instruction but the brackets, where a dialect binds no
handlers besides the operations.
-/

namespace TapeDialects

/-- What an instruction works on besides the program: the tape and the stream. -/
structure Bench where
  tape : Tape
  stream : Stream
  deriving DecidableEq, Repr

namespace Bench

def cell (b : Bench) : Int := b.tape.get

end Bench

namespace Session

def bench (s : Session) : Bench := ⟨s.machine.tape, s.stream⟩

/-- The session at the same place of its program with another tape and stream. -/
def withBench (s : Session) (b : Bench) : Session :=
  ⟨⟨b.tape, s.machine.program, s.machine.ip, s.machine.steps⟩, b.stream⟩

@[simp] theorem current?_withBench (s : Session) (b : Bench) :
    (s.withBench b).machine.current? = s.machine.current? := rfl

end Session

namespace Act

open Session (current?_withBench)

variable {α β : Type}

/-- The action works on tape and stream alone, and looks at nothing else but the current
instruction. -/
def Local (x : Act Session α) : Prop :=
  ∀ s s' : Session, s.machine.current? = s'.machine.current? →
    x (s'.withBench s.bench) = ((x s).1, s'.withBench (x s).2.bench)

theorem Local.stays {x : Act Session α} (h : x.Local) (s : Session) :
    x s = ((x s).1, s.withBench (x s).2.bench) :=
  h s s rfl

/-- Whatever is said of the program and the counters alone is kept by a local action. -/
theorem Local.keeps {x : Act Session α} (h : x.Local) (P : Program → Nat → Nat → Prop) :
    Keeps x fun s => P s.machine.program s.machine.ip s.machine.steps := by
  intro s hs
  rw [h.stays s]
  exact hs

theorem local_pure (a : α) : (pure a : Act Session α).Local := fun _ _ _ => rfl

theorem local_fail (f : Fault) : (fail f : Act Session α).Local := fun _ _ _ => rfl

theorem local_ofTape (x : Act Tape Unit) : (Handler.ofTape x).Local := fun _ _ _ => rfl

theorem local_onStream (x : Act Stream α) : (onStream x).Local := fun _ _ _ => rfl

theorem local_bind {x : Act Session α} {f : α → Act Session β} (hx : x.Local)
    (hf : ∀ a, (f a).Local) : (x >>= f).Local := by
  intro s s' hc
  have hs := hx.stays s
  rw [bind_apply, bind_apply, hx s s' hc]
  cases hr : x s with
  | mk r t =>
    rw [hr] at hs
    cases r with
    | error e => rfl
    | ok a =>
      have ht : t = s.withBench t.bench := congrArg Prod.snd hs
      have htc : t.machine.current? = s.machine.current? := by rw [ht, current?_withBench]
      exact hf a t s' (htc.trans hc)

theorem local_ofBench {x : Bench → Act Session α} (h : ∀ b, (x b).Local) :
    Local (fun s => x s.bench s) :=
  fun s s' hc => h s.bench s s' hc

end Act

open Act

/-! ### Operations -/

namespace Session

theorem local_put (mode : OutputMode) : (put mode).Local :=
  local_ofBench fun b => local_onStream (Stream.writeValue b.cell mode)

theorem local_get : get.Local :=
  local_bind (local_onStream Stream.readChar) fun v => local_ofTape (Tape.set v)

theorem local_advance : advance.Local := local_ofTape (Tape.shift 1)

theorem local_storeLiteral : (onMachine Machine.storeLiteral).Local := by
  intro s s' hc
  rw [onMachine_apply, onMachine_apply]
  have hc' : (s'.withBench s.bench).machine.current? = s.machine.current? := hc.symm
  unfold Machine.storeLiteral
  rw [hc']
  split <;> rfl

theorem local_putToken (t : TokenTable) (separator : String) : (putToken t separator).Local := by
  intro s s' hc
  have hcell : (s'.withBench s.bench).cell = s.cell := rfl
  unfold putToken
  rw [hcell]
  split
  · rfl
  · exact local_bind (local_onStream _) (fun _ => local_onStream _) s s' hc

theorem local_drainCells (mode : OutputMode) (n : Nat) : (drainCells mode n).Local := by
  induction n with
  | zero => exact local_pure ()
  | succ n ih =>
    intro s s' hc
    have hcell : (s'.withBench s.bench).cell = s.cell := rfl
    rw [drainCells]
    dsimp only
    rw [hcell]
    split
    · rfl
    · exact local_bind (local_put mode) (fun _ => local_bind local_advance fun _ => ih) s s' hc

theorem local_drain (mode : OutputMode) : (drain mode).Local :=
  local_ofBench fun b => local_drainCells mode b.tape.cells.size

theorem raises_put (mode : OutputMode) : (put mode).Raises Fault.OfStream :=
  fun s => raises_onStream (Stream.raises_writeBytes .stream _) s

theorem raises_get : get.Raises Fault.OfData :=
  raises_bind ((raises_onStream Stream.raises_readChar).mono fun _ => .inr)
    fun v => (raises_ofTape (Tape.raises_set v)).mono fun _ => .inl

theorem raises_advance : advance.Raises Fault.OfTape :=
  raises_ofTape (Tape.raises_shift .pointerOutOfRange 1)

theorem raises_storeLiteral : (onMachine Machine.storeLiteral).Raises Fault.OfTape := by
  refine raises_onMachine fun m f h => ?_
  unfold Machine.storeLiteral at h
  split at h
  · contradiction
  · exact raises_onTape (Tape.raises_storeChars _) m f h

end Session

namespace Handler

/-- The handlers that are operations on cells and streams. The others look at the program or the
counters, or come from outside. -/
def isOperation : Handler → Bool
  | nop | or | and | xor | not | shl | shr | njm | pjm | zro | hom | buf | putAdvance
  | getAdvance => true
  | putToken | jumpForward | jumpBackward | storeProgram | resync | greet | drain
  | custom _ => false

theorem local_run {h : Handler} (hh : h.isOperation = true) (d : Setting) : (h.run d).Local := by
  cases h with
  | nop => exact local_pure ()
  | or | and | xor | not | shl | shr | njm | pjm | zro | hom => exact local_ofTape _
  | buf => exact Session.local_storeLiteral
  | putAdvance => exact local_bind (Session.local_put _) fun _ => Session.local_advance
  | getAdvance => exact local_bind Session.local_get fun _ => Session.local_advance
  | _ => contradiction

theorem raises_run {h : Handler} (hh : h.isOperation = true) (d : Setting) :
    (h.run d).Raises Fault.OfData := by
  have tape {x : Act Tape Unit} (hx : x.Raises Fault.OfTape) :
      (ofTape x).Raises Fault.OfData := (raises_ofTape hx).mono fun _ => .inl
  have advance : Session.advance.Raises Fault.OfData := Session.raises_advance.mono fun _ => .inl
  cases h with
  | nop => exact raises_pure ()
  | or | and | xor => exact tape (Tape.raises_combine _)
  | not | shl | shr => exact tape fun t => Tape.raises_set _ t
  | njm | pjm => exact tape fun t => Tape.raises_shift .pointerOutOfRange _ t
  | zro => exact tape (Tape.raises_set 0)
  | hom => exact tape (Tape.raises_seek .pointerOutOfRange 0)
  | buf => exact Session.raises_storeLiteral.mono fun _ => .inl
  | putAdvance =>
    exact raises_bind ((Session.raises_put _).mono fun _ => .inr) fun _ => advance
  | getAdvance => exact raises_bind Session.raises_get fun _ => advance
  | _ => contradiction

end Handler

/-! ### Instructions -/

namespace Opcode

def isBracket (op : Opcode) : Bool := op = .opn ∨ op = .cls

end Opcode

namespace Session

theorem local_coreEffect (mode : OutputMode) {op : Opcode} (h : op.isBracket = false) :
    (coreEffect mode op).Local := by
  cases op with
  | opn | cls => contradiction
  | nxt | prv | inc | dec => exact local_ofTape _
  | put => exact local_put mode
  | get => exact local_get
  | _ => exact local_fail _

theorem raises_coreEffect (mode : OutputMode) {op : Opcode} (h : op.isBracket = false) :
    (coreEffect mode op).Raises fun f => f.OfData ∨ f = .noHandler op := by
  have tape {x : Act Tape Unit} (hx : x.Raises Fault.OfTape) :
      (Handler.ofTape x).Raises fun f => f.OfData ∨ f = .noHandler op :=
    (raises_ofTape hx).mono fun _ hf => .inl (.inl hf)
  cases op with
  | opn | cls => contradiction
  | nxt | prv => exact tape (Tape.raises_shift .pointerOutOfRange _)
  | inc | dec => exact tape (Tape.raises_add _)
  | put => exact (raises_put mode).mono fun _ hf => .inl (.inr hf)
  | get => exact raises_get.mono fun _ => .inl
  | _ => exact raises_fail (.inr rfl)

end Session

namespace Dialect

def BindsOperations (d : Dialect) : Prop :=
  ∀ op h, d.handler? op = some h → h.isOperation = true

theorem bindsOperations_of_all {d : Dialect} (h : d.handlers.all fun b => b.2.isOperation) :
    d.BindsOperations :=
  fun _ _ => kind_of_handler? h

theorem local_effect {d : Dialect} (hd : d.BindsOperations) {op : Opcode}
    (h : op.isBracket = false) : (d.effect op).Local := by
  unfold effect
  split
  · next g hg => exact Handler.local_run (hd op g hg) d.toSetting
  · exact Session.local_coreEffect d.config.output h

theorem raises_effect {d : Dialect} (hd : d.BindsOperations) {op : Opcode}
    (h : op.isBracket = false) : (d.effect op).Raises fun f => f.OfData ∨ f = .noHandler op := by
  unfold effect
  split
  · next g hg => exact (Handler.raises_run (hd op g hg) d.toSetting).mono fun _ => .inl
  · exact Session.raises_coreEffect d.config.output h

end Dialect

end TapeDialects
