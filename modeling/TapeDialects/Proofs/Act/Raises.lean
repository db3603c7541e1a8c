import TapeDialects.Dialect.Handler

/-!
# Faults of actions

Which faults an action can stop with. `Act.Raises x P` says that every fault of `x` satisfies
`P`; a sequence raises no more than its parts do, and an action on a part of a session no more
than the part does. The operations on tapes raise `Fault.OfTape` only, those on streams
`Fault.OfStream` only, so that none of them reports an unmatched bracket.
-/

namespace TapeDialects

inductive Fault.OfTape : Fault → Prop where
  | pointerOutOfRange (target : Int) (cells : Nat) : OfTape (.pointerOutOfRange target cells)
  | cellOverflow (value least greatest : Int) : OfTape (.cellOverflow value least greatest)

inductive Fault.OfStream : Fault → Prop where
  | inputClosed : OfStream .inputClosed
  | stream (text : String) : OfStream (.stream text)

/-- The faults of an operation on a session that leaves the program alone. -/
def Fault.OfData (f : Fault) : Prop := f.OfTape ∨ f.OfStream

namespace Act

variable {σ α β : Type} {P Q : Fault → Prop}

def Raises (x : Act σ α) (P : Fault → Prop) : Prop :=
  ∀ s f, (x s).1 = .error f → P f

theorem raises_of_eq_error {x : Act σ α} (h : ∀ s f s', x s = (.error f, s') → P f) : x.Raises P :=
  fun s f hf => h s f (x s).2 (Prod.ext hf rfl)

theorem raises_pure (a : α) : (pure a : Act σ α).Raises P := by
  intro s f h
  simp [pure_apply] at h

theorem raises_fail {f : Fault} (h : P f) : (fail f : Act σ α).Raises P := by
  intro s g hg
  simp only [fail_apply, Except.error.injEq] at hg
  exact hg ▸ h

theorem raises_bind {x : Act σ α} {f : α → Act σ β} (hx : x.Raises P)
    (hf : ∀ a, (f a).Raises P) : (x >>= f).Raises P := by
  intro s e h
  rw [bind_apply] at h
  cases hr : x s with
  | mk r s' =>
    rw [hr] at h
    cases r with
    | error e' => exact hx s e (by simpa [hr] using h)
    | ok a => exact hf a s' e h

theorem Raises.mono {x : Act σ α} (h : x.Raises P) (hPQ : ∀ f, P f → Q f) : x.Raises Q :=
  fun s f hf => hPQ f (h s f hf)

theorem raises_onTape {x : Act Tape α} (h : x.Raises P) : (onTape x).Raises P :=
  fun m => h m.tape

theorem raises_onMachine {x : Act Machine α} (h : x.Raises P) : (onMachine x).Raises P :=
  fun s => h s.machine

theorem raises_onStream {x : Act Stream α} (h : x.Raises P) : (onStream x).Raises P :=
  fun s => h s.stream

theorem raises_ofTape {x : Act Tape Unit} (h : x.Raises P) : (Handler.ofTape x).Raises P :=
  raises_onMachine (raises_onTape h)

end Act

open Act

/-! ### Tapes -/

namespace Tape

theorem raises_set (v : Int) : (set v).Raises Fault.OfTape :=
  raises_of_eq_error fun t f t' h => by
    obtain ⟨-, rfl⟩ := set_eq_error h
    exact .cellOverflow _ _ _

/-- Moving the pointer raises one kind of fault only, whatever else a property admits. -/
theorem raises_growTo {P : Fault → Prop} (hP : ∀ target cells, P (.pointerOutOfRange target cells))
    (i : Nat) : (growTo i).Raises P :=
  raises_of_eq_error fun t f t' h => by
    obtain ⟨-, rfl⟩ := growTo_eq_error h
    exact hP _ _

theorem raises_seek {P : Fault → Prop} (hP : ∀ target cells, P (.pointerOutOfRange target cells))
    (target : Int) : (seek target).Raises P :=
  raises_of_eq_error fun t f t' h => by
    obtain ⟨-, _, rfl⟩ := seek_eq_error h
    exact hP _ _

theorem raises_setAt (i : Nat) (v : Int) : (setAt i v).Raises Fault.OfTape := by
  intro t f h
  unfold setAt at h
  split at h
  · next hf =>
    cases h
    obtain rfl := fit_eq_error hf
    exact .cellOverflow _ _ _
  · split at h
    · contradiction
    · split at h
      · split at h
        · contradiction
        · next hg =>
          cases h
          exact raises_growTo .pointerOutOfRange i t f (by rw [hg])
      · cases h
        exact .pointerOutOfRange _ _

theorem raises_add (delta : Int) : (add delta).Raises Fault.OfTape :=
  fun t => raises_set (t.get + delta) t

theorem raises_shift {P : Fault → Prop} (hP : ∀ target cells, P (.pointerOutOfRange target cells))
    (delta : Int) : (shift delta).Raises P :=
  fun t => raises_seek hP (t.ptr + delta) t

theorem raises_combine (g : Int → Int → Int) : (combine g).Raises Fault.OfTape := by
  intro t f h
  simp only [combine] at h
  split at h
  · exact raises_set _ _ f h
  · next hs =>
    cases h
    exact raises_shift .pointerOutOfRange 1 t f (by rw [hs])

theorem raises_storeChars (cs : List Char) : (storeChars cs).Raises Fault.OfTape := by
  induction cs with
  | nil => exact raises_pure ()
  | cons c cs ih =>
    exact raises_bind (raises_set _) fun _ =>
      raises_bind (raises_shift .pointerOutOfRange 1) fun _ => ih

theorem raises_storeCharsAt (i : Nat) (cs : List Char) :
    (storeCharsAt i cs).Raises Fault.OfTape := by
  induction cs generalizing i with
  | nil => exact raises_pure ()
  | cons c cs ih => exact raises_bind (raises_setAt i _) fun _ => ih (i + 1)

end Tape

/-! ### Streams -/

namespace Stream

theorem raises_readByte : readByte.Raises Fault.OfStream := by
  intro s f h
  unfold readByte at h
  split at h
  · contradiction
  · split at h
    · contradiction
    · cases h
      exact .stream _

theorem raises_giveBack (bs : List UInt8) : (giveBack bs).Raises Fault.OfStream := by
  intro s f h
  simp [giveBack] at h

theorem raises_readContinuation (n : Nat) : (readContinuation n).Raises Fault.OfStream := by
  induction n with
  | zero => exact raises_pure []
  | succ n ih =>
    refine raises_bind raises_readByte fun b => ?_
    cases b with
    | none => exact raises_pure []
    | some b =>
      dsimp only
      split
      · exact raises_bind ih fun bs => raises_pure _
      · exact raises_bind (raises_giveBack [b]) fun _ => raises_pure []

theorem raises_readChar : readChar.Raises Fault.OfStream := by
  refine raises_bind raises_readByte fun first => ?_
  cases first with
  | none => exact raises_fail .inputClosed
  | some first =>
    refine raises_bind (raises_readContinuation _) fun tail => ?_
    split
    · exact raises_pure _
    · exact raises_bind (raises_giveBack tail) fun _ => raises_pure _

theorem raises_onSink {α : Type} {P : Fault → Prop} {x : Act Sink α} (h : x.Raises P) :
    (onSink x).Raises P :=
  fun s => h s.sink

theorem raises_write {P : Fault → Prop} (hP : ∀ text, P (.stream text)) (bs : List UInt8) :
    (Sink.write bs).Raises P := by
  intro k f h
  unfold Sink.write at h
  dsimp only at h
  split at h
  · contradiction
  · cases h
    exact hP _

theorem raises_writeBytes {P : Fault → Prop} (hP : ∀ text, P (.stream text)) (bs : List UInt8) :
    (writeBytes bs).Raises P :=
  raises_onSink (raises_write hP bs)

theorem raises_flush {P : Fault → Prop} (hP : ∀ text, P (.stream text)) : flush.Raises P := by
  refine raises_onSink fun k f h => ?_
  unfold Sink.flush at h
  split at h
  · contradiction
  · cases h
    exact hP _

end Stream

end TapeDialects
