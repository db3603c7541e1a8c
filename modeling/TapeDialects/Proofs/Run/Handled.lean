import TapeDialects.Proofs.Act.Local
import TapeDialects.Proofs.Catalog.Conversion
import TapeDialects.Proofs.Dialect.NewTokens
import TapeDialects.Proofs.Run.Relaxed

/-!
# Compiled programs find their handlers

A run of a compiled program never misses a handler or the position of an opcode. The invariant is
that the opcodes of the program are in the table of the dialect, where each one is of the core or
has a handler. Compiling establishes it, and the handlers that change the program keep it: reading
the tape puts in opcodes of the table only, and the greeting steps with `nxt`, which is in the
table of every dialect that greets. The invariant asks nothing of the tape, so it does not matter
which cells a program changes before it is read back.
-/

namespace TapeDialects

open Act

/-! ### Faults -/

/-- The fault names an opcode that the dialect does not know. -/
def Fault.missesOpcode : Fault → Bool
  | .unmapped _ | .noHandler _ => true
  | _ => false

def Error.missesOpcode : Error → Bool
  | .runtime f _ => f.missesOpcode
  | _ => false

theorem Fault.OfTape.not_missesOpcode {f : Fault} (h : f.OfTape) : f.missesOpcode = false := by
  cases h <;> rfl

theorem Fault.OfData.not_missesOpcode {f : Fault} (h : f.OfData) : f.missesOpcode = false := by
  rcases h with h | h
  · exact h.not_missesOpcode
  · cases h <;> rfl

/-! ### Programs that change themselves -/

variable {t : TokenTable}

theorem Tape.raises_storePositions {xs : List Instruction} (hx : ∀ x ∈ xs, x.op ∈ t.opcodes)
    (i : Nat) : (storePositions t xs i).Raises fun f => f.missesOpcode = false := by
  induction xs generalizing i with
  | nil => exact raises_pure ()
  | cons x xs ih =>
    obtain ⟨k, -, hk⟩ := TokenTable.position?_of_mem (hx x (List.mem_cons_self ..))
    rw [storePositions, hk]
    exact raises_bind ((raises_setAt i k).mono fun _ hf => hf.not_missesOpcode) fun _ =>
      ih (fun y hy => hx y (List.mem_cons_of_mem x hy)) (i + 1)

theorem Program.raises_readCells (t : TokenTable) (vs : List Int) (i : Nat) :
    (readCells t vs i).Raises fun f => f.missesOpcode = false := by
  induction vs generalizing i with
  | nil => exact raises_pure ()
  | cons v vs ih =>
    intro p f h
    rw [readCells] at h
    split at h
    · cases h
      rfl
    · exact ih (i + 1) _ f h

namespace Machine

def Known (t : TokenTable) (m : Machine) : Prop := m.program.Known t

theorem leads_storeProgram (t : TokenTable) :
    Leads (storeProgram t) (Known t) (Known t) fun f _ => f.missesOpcode = false := by
  intro m hm
  have hx : ∀ x ∈ m.program.toList.take m.tape.cells.size, x.op ∈ t.opcodes :=
    fun x hx => hm x (Array.mem_toList_iff.1 (List.mem_of_mem_take hx))
  have hr := Tape.raises_storePositions hx 0 m.tape
  rw [storeProgram_apply, Tape.storeProgram]
  cases hs : Tape.storePositions t (m.program.toList.take m.tape.cells.size) 0 m.tape with
  | mk r tape =>
    rw [hs] at hr
    cases r with
    | error f => exact hr f rfl
    | ok u => exact hm

theorem leads_readProgram (t : TokenTable) :
    Leads (readProgram t) (Known t) (Known t) fun f _ => f.missesOpcode = false :=
  leads_of_keeps (fun m hm => Program.known_readCells _ 0 m.program hm)
    fun m f h => Program.raises_readCells t _ 0 m.program f h

theorem leads_greet (h : .nxt ∈ t.opcodes) :
    Leads greet (Known t) (Known t) fun f _ => f.missesOpcode = false := by
  refine leads_bind (leads_of_keeps (fun _ hm => hm) ?_) fun _ m hm => ?_
  · exact raises_onTape ((Tape.raises_storeCharsAt 0 _).mono fun _ hf => hf.not_missesOpcode)
  · show Known t (if m.program.isEmpty then m else _)
    split
    · exact hm
    · intro x hx
      rcases Array.mem_append.1 hx with hx | hx
      · obtain ⟨-, rfl⟩ := Array.mem_replicate.1 hx
        exact h
      · exact hm x hx

theorem leads_of_jumps {x : Act Machine Unit} (hx : Jumps x) :
    Leads x (Known t) (Known t) fun f _ => f.missesOpcode = false :=
  leads_of_keeps (hx.keeps fun _ _ _ h => h) (hx.raises fun _ => rfl)

end Machine

/-! ### Handlers -/

namespace Session

def Known (t : TokenTable) (s : Session) : Prop := s.machine.program.Known t

theorem leads_of_local {x : Act Session Unit} (hx : x.Local) {F : Fault → Prop}
    (hr : x.Raises F) (hf : ∀ f, F f → f.missesOpcode = false) :
    Leads x (Known t) (Known t) fun f _ => f.missesOpcode = false :=
  leads_of_keeps (hx.keeps fun p _ _ => p.Known t) (hr.mono hf)

theorem raises_drainCells (mode : OutputMode) (n : Nat) :
    (drainCells mode n).Raises Fault.OfData := by
  induction n with
  | zero => exact raises_pure ()
  | succ n ih =>
    intro s f h
    rw [drainCells] at h
    dsimp only at h
    split at h
    · contradiction
    · have hput := (raises_put mode).mono fun f (hf : f.OfStream) => (Or.inr hf : f.OfData)
      have hadvance := raises_advance.mono fun f (hf : f.OfTape) => (Or.inl hf : f.OfData)
      exact raises_bind hput (fun _ => raises_bind hadvance fun _ => ih) s f h

theorem raises_putToken (t : TokenTable) (separator : String) :
    (putToken t separator).Raises fun f => f.missesOpcode = false := by
  have write (text : String) : (onStream (Stream.writeText text)).Raises
      fun f => f.missesOpcode = false :=
    raises_onStream (Stream.raises_writeBytes (fun _ => rfl) _)
  intro s f h
  unfold putToken at h
  split at h
  · cases h
    rfl
  · exact raises_bind (write _) (fun _ => write separator) s f h

theorem leads_coreEffect (mode : OutputMode) {op : Opcode} (h : op ∈ Opcode.core) :
    Leads (coreEffect mode op) (Known t) (Known t) fun f _ => f.missesOpcode = false := by
  have tape {x : Act Tape Unit} (hx : x.Raises Fault.OfTape) :
      Leads (Handler.ofTape x) (Known t) (Known t) fun f _ => f.missesOpcode = false :=
    leads_of_local (local_ofTape x) (raises_ofTape hx) fun _ hf => hf.not_missesOpcode
  have jump {x : Act Machine Unit} (hx : Machine.Jumps x) :
      Leads (onMachine x) (Known t) (Known t) fun f _ => f.missesOpcode = false :=
    leads_onMachine (Machine.leads_of_jumps hx)
  have stay : Leads (pure () : Act Session Unit) (Known t) (Known t)
      fun f _ => f.missesOpcode = false := fun _ h => h
  cases op with
  | nxt | prv => exact tape (Tape.raises_shift .pointerOutOfRange _)
  | inc | dec => exact tape (Tape.raises_add _)
  | put =>
    exact leads_of_local (local_put mode) ((raises_put mode).mono fun _ => .inr)
      fun f (hf : f.OfData) => hf.not_missesOpcode
  | get => exact leads_of_local local_get raises_get fun _ hf => hf.not_missesOpcode
  | opn => exact leads_ite (jump Machine.jumps_jumpForward) stay
  | cls => exact leads_ite stay (jump Machine.jumps_jumpBackward)
  | _ => exact absurd h (by simp [Opcode.core])

end Session

namespace Handler

def greets : Handler → Bool
  | greet => true
  | _ => false

theorem leads_run {h : Handler} (hl : h.isLibrary = true) {d : Setting}
    (hg : .nxt ∈ d.table.opcodes ∨ (!h.greets) = true) :
    Leads (h.run d) (Session.Known d.table) (Session.Known d.table)
      fun f _ => f.missesOpcode = false := by
  cases h with
  | custom => contradiction
  | putToken =>
    exact Session.leads_of_local (Session.local_putToken _ _) (Session.raises_putToken _ _)
      fun _ hf => hf
  | drain =>
    exact Session.leads_of_local (Session.local_drain _)
      (fun s => Session.raises_drainCells _ s.machine.tape.cells.size s)
      fun _ hf => hf.not_missesOpcode
  | jumpForward => exact leads_onMachine (Machine.leads_of_jumps Machine.jumps_jumpForward)
  | jumpBackward => exact leads_onMachine (Machine.leads_of_jumps Machine.jumps_jumpBackward)
  | storeProgram => exact leads_onMachine (Machine.leads_storeProgram d.table)
  | resync =>
    exact leads_onMachine (leads_bind (Machine.leads_readProgram d.table) fun _ =>
      Machine.leads_storeProgram d.table)
  | greet => exact leads_onMachine (Machine.leads_greet (hg.resolve_right (by decide)))
  | _ =>
    exact Session.leads_of_local (local_run rfl d) (raises_run rfl d)
      fun _ hf => hf.not_missesOpcode

end Handler

/-! ### Runs -/

namespace Dialect

/-- The handlers are of the library, and none of them puts an opcode into a program that the table
does not have. -/
structure Closed (d : Dialect) : Prop where
  library : d.Uses Handler.isLibrary
  greeting : .nxt ∈ d.table.opcodes ∨ d.Uses fun h => !h.greets

variable {d d' : Dialect} {p : Program}

theorem leads_effect_known (hd : d.Closed) {op : Opcode} (ho : op ∈ d.table.opcodes) :
    Leads (d.effect op) (Session.Known d.table) (Session.Known d.table)
      fun f _ => f.missesOpcode = false := by
  unfold effect
  cases hh : d.handler? op with
  | some h =>
    exact Handler.leads_run (hd.library.handlers op h hh)
      (hd.greeting.imp_right fun hu => hu.handlers op h hh)
  | none =>
    -- The check of the draft has left no opcode without an effect.
    have hcore : op ∈ Opcode.core := by
      refine (d.handled op ho).resolve_right ?_
      rw [show d.handlers.lookup op = none from hh]
      decide
    exact Session.leads_coreEffect d.config.output hcore

theorem leads_runHook_known (hd : d.Closed) {hook : Option Handler}
    (hh : ∀ kind, d.Uses kind → ∀ h ∈ hook, kind h = true) :
    Leads (d.runHook hook) (Session.Known d.table) (Session.Known d.table)
      fun f _ => f.missesOpcode = false := by
  cases hook with
  | none => exact leads_of_keeps (keeps_pure ()) (raises_pure ())
  | some h =>
    exact Handler.leads_run (hh _ hd.library h rfl)
      (hd.greeting.imp_right fun hu => hh _ hu h rfl)

theorem leads_begin_known (hd : d.Closed) :
    Leads d.begin (Session.Known d.table) (Session.Known d.table)
      fun e _ => e.missesOpcode = false :=
  leads_locatedOutside (leads_runHook_known hd fun _ hu => hu.preRun)

theorem leads_step_known (hd : d.Closed) :
    Leads d.step (Session.Known d.table) (Session.Known d.table)
      fun e _ => e.missesOpcode = false := by
  refine leads_step (fun _ _ _ _ _ => rfl) fun s i hs hi => ?_
  have ho : i.op ∈ d.table.opcodes := hs i (Array.mem_of_getElem? hi)
  exact leads_execute (leads_effect_known hd ho) (fun _ h => h)
    (leads_runHook_known hd fun _ hu => hu.step) s hs

theorem leads_finish_known (hd : d.Closed) :
    Leads d.finish (Session.Known d.table) (Session.Known d.table)
      fun e _ => e.missesOpcode = false := by
  have hflush : Leads (onStream Stream.flush) (Session.Known d.table) (Session.Known d.table)
      fun f _ => f.missesOpcode = false :=
    Session.leads_of_local (local_onStream _)
      (raises_onStream (Stream.raises_flush (P := fun f => f.missesOpcode = false) fun _ => rfl))
      fun _ hf => hf
  exact leads_bind (leads_locatedOutside (leads_runHook_known hd fun _ hu => hu.postRun)) fun _ =>
    leads_locatedOutside hflush

theorem not_missesOpcode_of_run (hd : d.Closed) (hp : p.Known d.table) {fuel : Nat} {m : Machine}
    {stream : Stream} {e : Error} {s : Session}
    (h : d.run fuel p m stream = (some (.error e), s)) : e.missesOpcode = false := by
  have hrun := leads_runLoaded (leads_begin_known hd) (leads_step_known hd)
    (leads_finish_known hd) fuel (s := ⟨d.load p m, stream⟩) hp
  rw [run] at h
  rw [h] at hrun
  exact hrun

/-! ### Dialects that are obtained from the library -/

end Dialect

/-- The handlers for any dialect: the operations, the jumps and the copies. The others are made for
one dialect of the catalog or come from outside. -/
def Handler.isGeneral : Handler → Bool
  | putToken | greet | drain | custom _ => false
  | _ => true

namespace Draft

variable {draft : Draft} {d : Dialect}

theorem isGeneral_of_standard? {op : Opcode} {h : Handler} (hs : Handler.standard? op = some h) :
    h.isGeneral = true := by
  cases op with
  | nop | or | and | not | xor | shl | shr | njm | pjm | zro | hom | buf | endBuf | com | endCom =>
    cases hs
    rfl
  | _ => cases hs

theorem build_eq_ok (h : draft.build = .ok d) :
    d.handlers = draft.handlers ++ draft.standardHandlers ∧ d.hooks = draft.hooks := by
  unfold build at h
  split at h
  · contradiction
  · cases h
    exact ⟨rfl, rfl⟩

theorem uses_of_build (h : draft.build = .ok d)
    (hh : (draft.handlers.all fun b => b.2.isGeneral) = true)
    (hp : draft.hooks.preRun.all Handler.isSync = true)
    (hs : draft.hooks.step.all Handler.isSync = true)
    (he : draft.hooks.postRun.all Handler.isSync = true) : d.Uses Handler.isGeneral := by
  obtain ⟨hd, hk⟩ := build_eq_ok h
  have hook {o : Option Handler} (ho : o.all Handler.isSync = true) :
      o.all Handler.isGeneral = true := by
    rcases o with _ | _ | _
    all_goals first | rfl | cases ho
  refine Dialect.uses_of_all ?_ (hk ▸ hook hp) (hk ▸ hook hs) (hk ▸ hook he)
  rw [hd, List.all_append, hh, Bool.true_and, List.all_eq_true]
  intro b hb
  obtain ⟨op, -, hop⟩ := List.mem_filterMap.1 hb
  obtain ⟨g, hg, rfl⟩ := Option.map_eq_some_iff.1 hop
  exact isGeneral_of_standard? hg

end Draft

namespace Dialect

variable {d d' : Dialect}

/-- The dialects of the catalog and those built from drafts that bind general handlers and copy
between program and tape around the steps, also with new tokens or on another machine. -/
inductive Obtained : Dialect → Prop where
  | catalog {d : Dialect} {name : String} : Catalog.dialect name = .ok d → Obtained d
  | build {draft : Draft} {d : Dialect} :
    draft.build = .ok d → (draft.handlers.all fun b => b.2.isGeneral) = true →
      draft.hooks.preRun.all Handler.isSync = true → draft.hooks.step.all Handler.isSync = true →
        draft.hooks.postRun.all Handler.isSync = true → Obtained d
  | withTokens {d d' : Dialect} {name : String} {tokens : List String} :
    Obtained d → d.withTokens name tokens = .ok d' → Obtained d'
  | withConfig {d d' : Dialect} {c : MachineConfig} :
    Obtained d → d.withConfig c = .ok d' → Obtained d'

theorem closed_of_mem_catalog (h : d ∈ Catalog.dialects) : d.Closed := by
  have hall : ∀ d ∈ Catalog.dialects, (d.handlers.all fun b => b.2.isLibrary) = true ∧
      d.hooks.preRun.all Handler.isLibrary = true ∧ d.hooks.step.all Handler.isLibrary = true ∧
      d.hooks.postRun.all Handler.isLibrary = true ∧ .nxt ∈ d.table.opcodes := by decide
  obtain ⟨hh, hp, hs, he, hn⟩ := hall d h
  exact ⟨uses_of_all hh hp hs he, .inl hn⟩

theorem closed_of_uses_isGeneral (h : d.Uses Handler.isGeneral) : d.Closed := by
  refine ⟨h.mono fun g hg => ?_, .inr (h.mono fun g hg => ?_)⟩
  · cases g with
    | custom => contradiction
    | _ => rfl
  · cases g with
    | greet => contradiction
    | _ => rfl

theorem Closed.of_eq (hd : d.Closed) (ht : d'.table.opcodes = d.table.opcodes)
    (hh : d'.handlers = d.handlers) (hk : d'.hooks = d.hooks) : d'.Closed :=
  ⟨hd.library.of_eq hh hk, hd.greeting.imp (fun h => ht ▸ h) fun hu => hu.of_eq hh hk⟩

theorem closed_of_obtained (h : d.Obtained) : d.Closed := by
  induction h with
  | catalog h => exact closed_of_mem_catalog (Catalog.mem_of_dialect h)
  | build hb hh hp hs he =>
    exact closed_of_uses_isGeneral (Draft.uses_of_build hb hh hp hs he)
  | withTokens _ h ih =>
    obtain ⟨ht, -, -, hh, hk⟩ := withTokens_eq_ok h
    exact ih.of_eq (TokenTable.opcodes_replaceAliases ht) hh hk
  | withConfig _ h ih =>
    obtain ⟨-, ht, -, hh, hk⟩ := withConfig_eq_ok h
    exact ih.of_eq (by rw [ht]) hh hk

/-- Whatever a run of a compiled program fails with, in its hooks or its steps, it is not that an
opcode has no handler or no position in the table. -/
theorem run_finds_opcodes (hd : d.Obtained) {source : String} {p : Program}
    (hp : d.compile source = .ok p) (fuel : Nat) (m : Machine) (stream : Stream) {e : Error}
    {s : Session} (h : d.run fuel p m stream = (some (.error e), s)) (op : Opcode) (l : Location) :
    e ≠ .runtime (.noHandler op) l ∧ e ≠ .runtime (.unmapped op) l := by
  have he := not_missesOpcode_of_run (closed_of_obtained hd) (Setting.known_of_compile hp) h
  constructor
  · rintro rfl
    contradiction
  · rintro rfl
    contradiction

/-- A dialect that rewrites itself, with an opcode of its own for a jump. -/
def foldingDraft : Draft :=
  { name := "folding"
    table := TokenTable.declare [⟨.inc, ["i"]⟩, ⟨.custom "fold", ["f"]⟩] (by decide)
    config := { tapeSize := 4 }
    surface := { separators := [" "] }
    handlers := [(.custom "fold", .jumpForward)]
    hooks := { preRun := some .storeProgram, step := some .resync } }

def folding : Dialect := foldingDraft.declare (by decide)

/-- The first instruction turns itself into the second, which finds no bracket to jump to. -/
theorem run_finds_opcodes_folding :
    let p : Program := .ofOpcodes [.inc, .custom "fold"]
    let r := folding.run 2 p folding.newMachine {}
    foldingDraft.build = .ok folding ∧ folding.compile "i f" = .ok p ∧
      r.2.machine.program = .ofOpcodes [.custom "fold", .custom "fold"] ∧
      ∃ e, r.1 = some (.error e) ∧ ∀ op l, e ≠ .runtime (.noHandler op) l ∧
        e ≠ .runtime (.unmapped op) l := by
  intro p r
  have hb : foldingDraft.build = .ok folding := rfl
  have hp : folding.compile "i f" = .ok p :=
    Setting.compile_eq_of_render (by decide +kernel) (Setting.faithful_ofOpcodes (by decide))
      (by decide +kernel)
  have hr : r.1 = some (.error (.runtime (.unmatchedBracket .forward)
      ⟨some (.custom "fold"), 1, 0⟩)) := by decide +kernel
  have hd : folding.Obtained := .build hb rfl rfl rfl rfl
  exact ⟨hb, hp, by decide +kernel, _, hr, fun op l =>
    run_finds_opcodes hd hp 2 folding.newMachine {} (Prod.ext hr rfl) op l⟩

end Dialect

end TapeDialects
