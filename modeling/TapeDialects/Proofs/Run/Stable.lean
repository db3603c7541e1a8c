import TapeDialects.Proofs.Dialect.Uses
import TapeDialects.Proofs.Machine.Jump
import TapeDialects.Proofs.Run.Leads
import TapeDialects.Proofs.Tape.Stable

/-!
# Stable properties of machines

A handler of the library changes a machine in three ways: through actions on its tape, by moving
the instruction pointer to an instruction, and by rewriting the program without making it shorter.
A property that these keep is stable (`Machine.Stable`), and every handler, every core instruction
and every hook keeps it, whether it completes or stops halfway.
-/

namespace TapeDialects

open Act

/-! ### Programs under the handlers -/

namespace Program

theorem size_le_putOpcode (p : Program) (i : Nat) (op : Opcode) :
    p.size ≤ (p.putOpcode i op).size := by
  unfold putOpcode
  split
  · simp
  · split <;> simp

theorem size_le_readCells (table : TokenTable) (vs : List Int) (i : Nat) (p : Program) :
    p.size ≤ (readCells table vs i p).2.size := by
  induction vs generalizing i p with
  | nil => exact Nat.le_refl _
  | cons v vs ih =>
    rw [readCells]
    split
    · exact Nat.le_refl _
    · exact Nat.le_trans (p.size_le_putOpcode i _) (ih (i + 1) _)

end Program

/-! ### Handlers -/

namespace Session

variable {P : Machine → Prop}

theorem keeps_put (mode : OutputMode) : Keeps (put mode) fun s => P s.machine :=
  fun s hs => keeps_onStream (Stream.writeValue s.cell mode) s hs

theorem keeps_putToken (table : TokenTable) (separator : String) :
    Keeps (putToken table separator) fun s => P s.machine := by
  intro s hs
  unfold putToken
  split
  · exact hs
  · exact keeps_bind (keeps_onStream _) (fun _ => keeps_onStream _) s hs

theorem keeps_drainCells (ha : Keeps advance fun s => P s.machine) (mode : OutputMode) (n : Nat) :
    Keeps (drainCells mode n) fun s => P s.machine := by
  induction n with
  | zero => exact keeps_pure ()
  | succ n ih =>
    exact keeps_ite (keeps_pure ())
      (keeps_bind (keeps_put mode) fun _ => keeps_bind ha fun _ => ih)

end Session

namespace Machine

structure Stable (P : Machine → Prop) : Prop where
  tape : ∀ m : Machine, Tape.Stable fun tape => P { m with tape := tape }
  jump : ∀ m i, i < m.program.size → P m → P { m with ip := i }
  program : ∀ m p, m.program.size ≤ p.size → P m → P { m with program := p }

namespace Stable

variable {P : Machine → Prop} (h : Stable P)
include h

theorem keeps_onTape {x : Act Tape Unit} (hx : ∀ Q, Tape.Stable Q → Keeps x Q) :
    Keeps (onTape x) P :=
  fun m hm => hx _ (h.tape m) m.tape hm

theorem keeps_of_jumps {x : Act Machine Unit} (hx : Jumps x) : Keeps x P := hx.keeps h.jump

theorem keeps_storeLiteral : Keeps storeLiteral P := by
  intro m hm
  unfold storeLiteral
  split
  · exact hm
  · exact h.keeps_onTape (fun _ hq => hq.keeps_storeChars _) m hm

theorem keeps_greet : Keeps greet P := by
  refine keeps_bind (h.keeps_onTape fun _ hq => hq.keeps_storeCharsAt 0 _) fun _ m hm => ?_
  show P (if m.program.isEmpty then m else _)
  split
  · exact hm
  · refine h.program m _ ?_ hm
    rw [Array.size_append]
    exact Nat.le_add_left ..

theorem keeps_storeProgram (table : TokenTable) : Keeps (storeProgram table) P :=
  fun m hm => (h.tape m).keeps_storeProgram table m.program m.tape hm

theorem keeps_readProgram (table : TokenTable) : Keeps (readProgram table) P :=
  fun m hm => h.program m _ (Program.size_le_readCells table _ 0 m.program) hm

theorem keeps_resync (table : TokenTable) : Keeps (resync table) P :=
  keeps_bind (h.keeps_readProgram table) fun _ => h.keeps_storeProgram table

theorem keeps_ofTape {x : Act Tape Unit} (hx : ∀ Q, Tape.Stable Q → Keeps x Q) :
    Keeps (Handler.ofTape x) fun s => P s.machine :=
  keeps_onMachine (h.keeps_onTape hx)

theorem keeps_advance : Keeps Session.advance fun s => P s.machine :=
  h.keeps_ofTape fun _ hq => hq.keeps_shift 1

theorem keeps_get : Keeps Session.get fun s => P s.machine :=
  keeps_bind (keeps_onStream Stream.readChar) fun v => h.keeps_ofTape fun _ hq => hq.keeps_set v

theorem keeps_drain (mode : OutputMode) : Keeps (Session.drain mode) fun s => P s.machine :=
  fun s hs => Session.keeps_drainCells h.keeps_advance mode s.machine.tape.cells.size s hs

theorem keeps_run {handler : Handler} (hl : handler.isLibrary = true) (d : Setting) :
    Keeps (handler.run d) fun s => P s.machine := by
  cases handler with
  | nop => exact keeps_pure ()
  | or | and | xor => exact h.keeps_ofTape fun _ hq => hq.keeps_combine _
  | not => exact h.keeps_ofTape fun _ hq => hq.keeps_complement _
  | shl => exact h.keeps_ofTape fun _ hq => hq.keeps_shiftLeft
  | shr => exact h.keeps_ofTape fun _ hq => hq.keeps_shiftRight
  | njm => exact h.keeps_ofTape fun _ hq => hq.keeps_jumpRight
  | pjm => exact h.keeps_ofTape fun _ hq => hq.keeps_jumpLeft
  | zro => exact h.keeps_ofTape fun _ hq => hq.keeps_set 0
  | hom => exact h.keeps_ofTape fun _ hq => hq.keeps_seek 0
  | buf => exact keeps_onMachine h.keeps_storeLiteral
  | putAdvance => exact keeps_bind (Session.keeps_put _) fun _ => h.keeps_advance
  | getAdvance => exact keeps_bind h.keeps_get fun _ => h.keeps_advance
  | putToken => exact Session.keeps_putToken _ _
  | jumpForward => exact keeps_onMachine (h.keeps_of_jumps jumps_jumpForward)
  | jumpBackward => exact keeps_onMachine (h.keeps_of_jumps jumps_jumpBackward)
  | storeProgram => exact keeps_onMachine (h.keeps_storeProgram _)
  | resync => exact keeps_onMachine (h.keeps_resync _)
  | greet => exact keeps_onMachine h.keeps_greet
  | drain => exact h.keeps_drain _
  | custom effect => contradiction

theorem keeps_coreEffect (mode : OutputMode) (op : Opcode) :
    Keeps (Session.coreEffect mode op) fun s => P s.machine := by
  have jump {x : Act Machine Unit} (hx : Jumps x) : Keeps (onMachine x) fun s => P s.machine :=
    keeps_onMachine (h.keeps_of_jumps hx)
  cases op with
  | nxt | prv => exact h.keeps_ofTape fun _ hq => hq.keeps_shift _
  | inc | dec => exact h.keeps_ofTape fun _ hq => hq.keeps_add _
  | put => exact Session.keeps_put mode
  | get => exact h.keeps_get
  | opn => exact keeps_ite (jump jumps_jumpForward) (keeps_pure ())
  | cls => exact keeps_ite (keeps_pure ()) (jump jumps_jumpBackward)
  | _ => exact keeps_fail _

/-! ### Parts of a run -/

variable {d : Dialect}

theorem keeps_effect (hl : d.Uses Handler.isLibrary) (op : Opcode) :
    Keeps (d.effect op) fun s => P s.machine := by
  unfold Dialect.effect
  split
  · next g hg => exact h.keeps_run (hl.handlers op g hg) _
  · exact h.keeps_coreEffect _ op

theorem keeps_runHook {hook : Option Handler} (hh : ∀ g ∈ hook, g.isLibrary = true) :
    Keeps (d.runHook hook) fun s => P s.machine := by
  cases hook with
  | none => exact keeps_pure ()
  | some g => exact h.keeps_run (hh g rfl) _

theorem keeps_begin (hl : d.Uses Handler.isLibrary) : Keeps d.begin fun s => P s.machine :=
  keeps_locatedOutside (h.keeps_runHook hl.preRun)

theorem keeps_finish (hl : d.Uses Handler.isLibrary) : Keeps d.finish fun s => P s.machine :=
  keeps_bind (keeps_locatedOutside (h.keeps_runHook hl.postRun)) fun _ =>
    keeps_locatedOutside (keeps_onStream Stream.flush)

theorem keeps_step (hl : d.Uses Handler.isLibrary)
    (hcount : ∀ s : Session, P s.machine → P s.countStep.machine) :
    Keeps d.step fun s => P s.machine := by
  refine leads_iff_keeps.1 (Dialect.leads_step (fun _ _ _ hs _ => hs) fun s i hs _ => ?_)
  exact Dialect.leads_execute (leads_iff_keeps.2 (h.keeps_effect hl i.op)) hcount
    (leads_iff_keeps.2 (h.keeps_runHook hl.step)) s hs

end Stable

end Machine

end TapeDialects
