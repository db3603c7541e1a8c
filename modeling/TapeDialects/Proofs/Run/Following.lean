import TapeDialects.Catalog
import TapeDialects.Proofs.Dialect.Uses
import TapeDialects.Proofs.Run.Agreeing
import TapeDialects.Proofs.Stream.Following

/-!
# Runs whose input goes on

A run never looks at input that it does not consume. Where its input is a text, a run that ends
otherwise than for want of input ends in the same way if the text is followed by anything else, and
leaves that unread (`run_followedBy`). Of the handlers of the library only those that read see the
input at all, and they agree up to the end of the text.
-/

namespace TapeDialects

open Act

namespace Session

variable {more : List Delivery} {α : Type} {E : Fault → Prop}

def followedBy (more : List Delivery) (s : Session) : Session :=
  { s with stream := s.stream.followedBy more }

def HoldsText (s : Session) : Prop := s.stream.HoldsText

theorem indistinct_followedBy (more : List Delivery) : Indistinct (followedBy more) where
  current _ := rfl
  ip _ := rfl
  steps _ := rfl
  ptr _ := rfl
  countStep _ := rfl

theorem agrees_onMachine (x : Act Machine α) :
    Agrees (onMachine x) HoldsText (followedBy more) E :=
  fun _ hs => .inr ⟨_, _, rfl, hs, rfl⟩

theorem agrees_ofTape (x : Act Tape Unit) :
    Agrees (Handler.ofTape x) HoldsText (followedBy more) E :=
  agrees_onMachine (onTape x)

theorem agrees_onStream {x : Act Stream α}
    (hx : Agrees x Stream.HoldsText (Stream.followedBy more) E) :
    Agrees (onStream x) HoldsText (followedBy more) E := by
  intro s hs
  rw [onStream_apply, onStream_apply]
  rcases hx s.stream hs with ⟨f, stream, hr, hE⟩ | ⟨r, stream, hr, hs', hg⟩
  · exact .inl ⟨f, _, by rw [hr], hE⟩
  · have hg' : x (s.followedBy more).stream = (r, stream.followedBy more) := hg
    refine .inr ⟨r, { s with stream := stream }, by rw [hr], hs', ?_⟩
    rw [hg']
    rfl

theorem agrees_write (bs : List UInt8) :
    Agrees (onStream (Stream.writeBytes bs)) HoldsText (followedBy more) E :=
  agrees_onStream (Stream.agrees_onSink _ more)

theorem agrees_flush : Agrees (onStream Stream.flush) HoldsText (followedBy more) E :=
  agrees_onStream (Stream.agrees_onSink _ more)

theorem agrees_put (mode : OutputMode) : Agrees (put mode) HoldsText (followedBy more) E :=
  agrees_of_value (fun v => onStream (Stream.writeValue v mode)) cell (fun _ => rfl)
    fun v => agrees_write (Stream.valueBytes v mode)

theorem agrees_advance : Agrees advance HoldsText (followedBy more) E := agrees_onMachine _

theorem agrees_putToken (t : TokenTable) (separator : String) :
    Agrees (putToken t separator) HoldsText (followedBy more) E := by
  intro s hs
  have hcell : (s.followedBy more).cell = s.cell := rfl
  unfold putToken
  rw [hcell]
  split
  · exact .inr ⟨_, s, rfl, hs, rfl⟩
  · exact agrees_bind (agrees_write _) (fun _ => agrees_write _) s hs

theorem agrees_drainCells (mode : OutputMode) (n : Nat) :
    Agrees (drainCells mode n) HoldsText (followedBy more) E := by
  induction n with
  | zero => exact agrees_pure ()
  | succ n ih =>
    exact agrees_ite (fun _ => Iff.rfl) (agrees_pure ())
      (agrees_bind (agrees_put mode) fun _ => agrees_bind agrees_advance fun _ => ih)

theorem agrees_drain (mode : OutputMode) : Agrees (drain mode) HoldsText (followedBy more) E :=
  agrees_of_value (drainCells mode) (fun s : Session => s.machine.tape.cells.size) (fun _ => rfl)
    (agrees_drainCells mode)

theorem agrees_get : Agrees get HoldsText (followedBy more) (· = .inputClosed) :=
  agrees_bind (agrees_onStream (Stream.agrees_readChar more)) fun _ => agrees_onMachine _

theorem agrees_coreEffect (mode : OutputMode) (op : Opcode) :
    Agrees (coreEffect mode op) HoldsText (followedBy more) (· = .inputClosed) := by
  cases op with
  | nxt | prv | inc | dec => exact agrees_ofTape _
  | put => exact agrees_put mode
  | get => exact agrees_get
  | opn => exact agrees_ite (fun _ => Iff.rfl) (agrees_onMachine _) (agrees_pure ())
  | cls => exact agrees_ite (fun _ => Iff.rfl) (agrees_pure ()) (agrees_onMachine _)
  | _ => exact agrees_fail _

end Session

open Session

theorem Handler.agrees_run {more : List Delivery} {h : Handler} (hl : h.isLibrary = true)
    (d : Setting) : Agrees (h.run d) HoldsText (followedBy more) (· = .inputClosed) := by
  cases h with
  | nop => exact agrees_pure ()
  | or | and | xor | not | shl | shr | njm | pjm | zro | hom => exact agrees_ofTape _
  | buf => exact agrees_onMachine Machine.storeLiteral
  | putAdvance => exact agrees_bind (agrees_put _) fun _ => agrees_advance
  | getAdvance => exact agrees_bind agrees_get fun _ => agrees_advance
  | putToken => exact agrees_putToken _ _
  | jumpForward => exact agrees_onMachine Machine.jumpForward
  | jumpBackward => exact agrees_onMachine Machine.jumpBackward
  | storeProgram => exact agrees_onMachine (Machine.storeProgram d.table)
  | resync => exact agrees_onMachine (Machine.resync d.table)
  | greet => exact agrees_onMachine Machine.greet
  | drain => exact agrees_drain _
  | custom effect => contradiction

namespace Dialect

variable {d : Dialect} {more : List Delivery} {sink : Sink} {fuel : Nat} {p : Program}
  {m : Machine} {s : Session} {r : Except Error Nat}

theorem alike_followedBy (hl : d.Uses Handler.isLibrary) (more : List Delivery) :
    d.Alike HoldsText (followedBy more) (· = .inputClosed) := by
  have hook {o : Option Handler} (ho : ∀ h ∈ o, h.isLibrary = true) :
      Agrees (d.runHook o) HoldsText (followedBy more) (· = .inputClosed) := by
    cases o with
    | none => exact agrees_pure ()
    | some h => exact Handler.agrees_run (ho h rfl) _
  refine ⟨fun op => ?_, hook hl.preRun, hook hl.step, hook hl.postRun, agrees_flush,
    fun s hs => hs⟩
  unfold effect
  split
  · next h hh => exact Handler.agrees_run (hl.handlers op h hh) _
  · exact agrees_coreEffect _ op

/-- Where a run on a text ends otherwise than for want of input, the run on the text followed by
anything else ends in the same way: with the same answer, machine and output. It leaves unread what
the other one leaves, followed by the rest. -/
theorem run_followedBy (hl : d.Uses Handler.isLibrary) (text : String) (more : List Delivery)
    (h : d.run fuel p m ⟨[], Delivery.ofBytes (Stream.textBytes text), sink⟩ = (some r, s))
    (hr : ∀ l, r ≠ .error (.runtime .inputClosed l)) :
    ∃ s', d.run fuel p m ⟨[], Delivery.ofBytes (Stream.textBytes text) ++ more, sink⟩ =
        (some r, s') ∧
      s'.machine = s.machine ∧ s'.stream.sink = s.stream.sink ∧
      s'.stream.unread = s.stream.unread ++ Delivery.bytes more ∧ s'.stream.pending = [] := by
  have hs : HoldsText ⟨d.load p m, ⟨[], Delivery.ofBytes (Stream.textBytes text), sink⟩⟩ :=
    ⟨rfl, text.toList, rfl⟩
  rcases agrees_runLoaded (indistinct_followedBy more) (alike_followedBy hl more) fuel hs with
    ⟨e, s', hrun, hE⟩ | ⟨r', s', hrun, hs', hrun'⟩
  · -- The run has ended with the one fault that is left out.
    have he : (some r, s) = (some (.error e), s') := h.symm.trans hrun
    cases he
    cases e with
    | runtime f l => exact absurd (by rw [show f = .inputClosed from hE]) (hr l)
    | _ => exact hE.elim
  · have he : (some r, s) = (r', s') := h.symm.trans hrun
    cases he
    exact ⟨s.followedBy more, hrun', rfl, rfl, Stream.unread_followedBy more s.stream, hs'.1⟩

/-- The classical dialect on a tape of two cells that are wide enough for any character. -/
def wideBrainfuck : Dialect :=
  { Catalog.brainfuck with
    config := { tapeSize := 2, cellWidth := 21 }
    config_valid := ⟨by decide, by decide, by decide⟩ }

/-- The run reads two of three characters and then leaves the tape. A byte that could continue a
character and a failure behind the text make no difference. -/
theorem run_followedBy_leavingTape :
    let p : Program := #[⟨.get, none⟩, ⟨.nxt, none⟩, ⟨.get, none⟩, ⟨.nxt, none⟩]
    let source := Delivery.ofBytes (Stream.textBytes "あéx")
    let answer : Except Error Nat := .error (.runtime (.pointerOutOfRange 2 2) ⟨some .nxt, 3, 1⟩)
    wideBrainfuck.Uses Handler.isLibrary ∧
      (wideBrainfuck.run 5 p wideBrainfuck.newMachine ⟨[], source, {}⟩).1 = some answer ∧
      ∃ s', wideBrainfuck.run 5 p wideBrainfuck.newMachine
          ⟨[], source ++ [.byte 0x81, .failure "broken"], {}⟩ = (some answer, s') ∧
        s'.machine.tape.cells = #[0x3042, 0xe9] ∧ s'.stream.unread = [0x78, 0x81] := by
  intro p source answer
  have hl : wideBrainfuck.Uses Handler.isLibrary := uses_of_all rfl rfl rfl rfl
  have hrun : wideBrainfuck.run 5 p wideBrainfuck.newMachine ⟨[], source, {}⟩ =
      (some answer, ⟨⟨⟨#[0x3042, 0xe9], 1, 0, 2097151, false, .error⟩, p, 3, 3⟩,
        ⟨[], [.byte 0x78], {}⟩⟩) := by
    rfl
  obtain ⟨s', hrun', hm, -, hu, -⟩ :=
    run_followedBy hl "あéx" [.byte 0x81, .failure "broken"] hrun (by simp [answer])
  exact ⟨hl, by rw [hrun], s', hrun', by rw [hm], hu⟩

end Dialect

end TapeDialects
