import TapeDialects.Catalog
import TapeDialects.Proofs.Program.Block
import TapeDialects.Proofs.Run.Halting

/-!
# Structured execution

`Block.Runs` executes a block without an instruction pointer: a loop tests the current cell,
executes its body and tests again. The machine has jumps instead. At a closing bracket with a
cell that is not zero it goes back to the opening bracket and moves on behind it, so the test is
not repeated; at an opening bracket with a zero cell it goes to the closing bracket and moves on
behind that. Hence both brackets of a loop take the machine to the same place
(`step_closing`), which is what makes jumping back the same as testing again.

The main statement is `halts_iff_runs`: where a dialect binds operations only, a machine that
steps through a well-nested program halts as the structured execution does, or neither halts.
-/

namespace TapeDialects

def Bench.place (b : Bench) (p : Program) (ip steps : Nat) : Session :=
  ⟨⟨b.tape, p, ip, steps⟩, b.stream⟩

namespace Dialect

/-- The effect of an instruction that stands alone. -/
def effectAlone (d : Dialect) (i : Instruction) (b : Bench) : Except Fault Unit × Bench :=
  match d.effect i.op (b.place #[i] 0 0) with
  | (r, s) => (r, s.bench)

/-- The dialects whose brackets are the only instructions that move the instruction pointer. -/
structure Structured (d : Dialect) : Prop where
  noStepHook : d.hooks.step = none
  noStepLimit : d.config.stepLimit = none
  opn_unbound : d.handler? .opn = none
  cls_unbound : d.handler? .cls = none
  operations : d.BindsOperations

end Dialect

namespace Block

/-- Structured execution of a block, from one tape and stream to another. -/
inductive Runs (d : Dialect) : Block → Bench → Except Fault Unit → Bench → Prop where
  | done (b : Bench) : Runs d .done b (.ok ()) b
  | fault {i h rest b f c} (hi : d.effectAlone i b = (.error f, c)) :
    Runs d (.plain i h rest) b (.error f) c
  | plain {i h rest b c r e} (hi : d.effectAlone i b = (.ok (), c)) (hr : Runs d rest c r e) :
    Runs d (.plain i h rest) b r e
  | skip {l r body rest b x c} (hz : b.cell = 0) (hr : Runs d rest b x c) :
    Runs d (.loop l r body rest) b x c
  | inside {l r body rest b f c} (hz : b.cell ≠ 0) (hb : Runs d body b (.error f) c) :
    Runs d (.loop l r body rest) b (.error f) c
  | again {l r body rest b c x e} (hz : b.cell ≠ 0) (hb : Runs d body b (.ok ()) c)
    (hl : Runs d (.loop l r body rest) c x e) : Runs d (.loop l r body rest) b x e

end Block

namespace Dialect

variable {d : Dialect} {p : Program} {ip i : Nat}

theorem Structured.effect_opn (hd : d.Structured) : d.effect .opn = Session.openLoop := by
  rw [effect, hd.opn_unbound]
  rfl

theorem Structured.effect_cls (hd : d.Structured) : d.effect .cls = Session.closeLoop := by
  rw [effect, hd.cls_unbound]
  rfl

theorem effectAlone_bound {i : Instruction} {h : Handler} (hh : d.handler? i.op = some h)
    (b : Bench) :
    d.effectAlone i b = ((h.run d.toSetting (b.place #[i] 0 0)).1,
      (h.run d.toSetting (b.place #[i] 0 0)).2.bench) := by
  rw [effectAlone, effect, hh]
  rfl

/-- An instruction of the core that works on the tape only, in a dialect that does not bind it. -/
theorem effectAlone_ofTape {i : Instruction} {x : Act Tape Unit} (hh : d.handler? i.op = none)
    (hx : Session.coreEffect d.config.output i.op = onMachine (onTape x)) (b : Bench) :
    d.effectAlone i b = ((x b.tape).1, ⟨(x b.tape).2, b.stream⟩) := by
  rw [effectAlone, effect, hh]
  dsimp only
  rw [hx]
  rfl

/-! ### Steps at a place of a program -/

theorem effect_place (hd : d.BindsOperations) {x : Instruction} (hx : x.op.isBracket = false)
    (h : p[ip]? = some x) (b : Bench) (k : Nat) :
    d.effect x.op (b.place p ip k) =
      ((d.effectAlone x b).1, (d.effectAlone x b).2.place p ip k) :=
  local_effect hd hx (b.place #[x] 0 0) (b.place p ip k) h.symm

theorem step_place (hd : d.Structured) {x : Instruction} (h : p[ip]? = some x) (b : Bench)
    (k : Nat) :
    d.step (b.place p ip k) =
      match d.effect x.op (b.place p ip k) with
      | (.ok (), s) => (.ok true, s.countStep)
      | (.error f, s) => (.error (.runtime f ⟨some x.op, ip, s.machine.tape.ptr⟩), s) := by
  have hc : (b.place p ip k).machine.current? = some x := h
  have hl : d.reachedLimit? (b.place p ip k).machine.steps = none := by
    rw [reachedLimit?, hd.noStepLimit, Option.filter_none]
  unfold step
  rw [hc]
  dsimp only
  rw [hl, execute_apply, hd.noStepHook]
  rcases d.effect x.op (b.place p ip k) with ⟨r, s⟩
  cases r <;> rfl

theorem step_end (d : Dialect) (h : p.size ≤ ip) (b : Bench) (k : Nat) :
    d.step (b.place p ip k) = (.ok false, b.place p ip k) := by
  have hc : (b.place p ip k).machine.current? = none := Array.getElem?_eq_none h
  rw [step, hc]

section Plain

variable {x : Instruction} {b c : Bench}

theorem step_plain (hd : d.Structured) (hx : x.op.isBracket = false) (h : p[ip]? = some x)
    (he : d.effectAlone x b = (.ok (), c)) (k : Nat) :
    d.step (b.place p ip k) = (.ok true, c.place p (ip + 1) (k + 1)) := by
  rw [step_place hd h, effect_place hd.operations hx h, he]
  rfl

theorem step_fault (hd : d.Structured) (hx : x.op.isBracket = false) (h : p[ip]? = some x)
    {f : Fault} (he : d.effectAlone x b = (.error f, c)) (k : Nat) :
    d.step (b.place p ip k) =
      (.error (.runtime f ⟨some x.op, ip, c.tape.ptr⟩), c.place p ip k) := by
  rw [step_place hd h, effect_place hd.operations hx h, he]
  rfl

/-- The same instruction some times in a row, which makes `b (j + 1)` of `b j`. -/
theorem steps_repeated (hd : d.Structured) (hx : x.op.isBracket = false) {n : Nat}
    (hp : p.Holds i (List.replicate n x)) {b : Nat → Bench}
    (hb : ∀ j < n, d.effectAlone x (b j) = (.ok (), b (j + 1))) (k : Nat) :
    d.steps n ((b 0).place p i k) = (none, (b n).place p (i + n) (k + n)) := by
  induction n generalizing i k b with
  | zero => rfl
  | succ n ih =>
    have hrest := ih hp.tail (b := fun j => b (j + 1)) (fun j hj => hb (j + 1) (by omega)) (k + 1)
    rw [steps, step_plain hd hx hp.head (hb 0 (by omega))]
    refine hrest.trans ?_
    rw [Nat.add_right_comm i, Nat.add_right_comm k]
    rfl

end Plain

section Loop

variable {l r : Option String} {body rest : Block} {b : Bench}

theorem step_opening (hd : d.Structured)
    (h : p.Holds i (Block.loop l r body rest).instructions) (b : Bench) (k : Nat) :
    d.step (b.place p i k) =
      (.ok true,
        b.place p (if b.cell = 0 then i + 1 + body.length + 1 else i + 1) (k + 1)) := by
  rw [step_place hd h.opening, hd.effect_opn, Session.openLoop]
  by_cases hz : b.cell = 0
  · have hc : (b.place p i k).cell = 0 := hz
    have hj := Program.closerFrom?_loop h
    rw [if_pos hc, if_pos hz, onMachine_apply]
    simp only [Machine.jumpForward, Bench.place, hj, Session.countStep]
  · have hc : (b.place p i k).cell ≠ 0 := hz
    rw [if_neg hc, if_neg hz]
    rfl

/-- The closing bracket of a loop takes the machine to the place where the opening one does. -/
theorem step_closing (hd : d.Structured)
    (h : p.Holds i (Block.loop l r body rest).instructions) (b : Bench) (k : Nat) :
    d.step (b.place p (i + 1 + body.length) k) = d.step (b.place p i k) := by
  rw [step_opening hd h, step_place hd h.closing, hd.effect_cls, Session.closeLoop]
  by_cases hz : b.cell = 0
  · have hc : (b.place p (i + 1 + body.length) k).cell = 0 := hz
    rw [if_pos hc, if_pos hz]
    rfl
  · have hc : (b.place p (i + 1 + body.length) k).cell ≠ 0 := hz
    have hj := Program.openerBefore?_loop h
    have hs : i + 1 + body.length ≤ p.size := by
      have := (Array.getElem?_eq_some_iff.1 h.closing).1
      omega
    rw [if_neg hc, if_neg hz, onMachine_apply]
    simp only [Machine.jumpBackward, Bench.place, Nat.min_eq_left hs, hj, Session.countStep]

end Loop

/-! ### From structured execution to steps -/

/-- What the machine does with a block, given how the block runs: it comes to the place behind
the block, or it stops at an instruction of the program. -/
def Follows (d : Dialect) (p : Program) (i : Nat) (blk : Block) (b : Bench) (k : Nat) :
    Except Fault Unit → Bench → Prop
  | .ok (), c => ∃ k', d.SameEnd (b.place p i k) (c.place p (i + blk.length) k')
  | .error f, c => ∃ ip k' x, p[ip]? = some x ∧
      d.Halts (b.place p i k) (.error (.runtime f ⟨some x.op, ip, c.tape.ptr⟩)) (c.place p ip k')

theorem follows_of_sameEnd {blk blk' : Block} {b b' c : Bench} {i' k k' : Nat}
    {x : Except Fault Unit} (hs : d.SameEnd (b.place p i k) (b'.place p i' k'))
    (hl : i + blk.length = i' + blk'.length) (h : d.Follows p i' blk' b' k' x c) :
    d.Follows p i blk b k x c := by
  cases x with
  | ok u =>
    obtain ⟨k'', hk⟩ := h
    exact ⟨k'', by rw [hl]; exact hs.trans hk⟩
  | error f =>
    obtain ⟨ip, k'', x, hx, hh⟩ := h
    exact ⟨ip, k'', x, hx, (hs _ _).2 hh⟩

theorem follows_of_runs (hd : d.Structured) {blk : Block} {b c : Bench}
    {x : Except Fault Unit} (h : blk.Runs d b x c) (k : Nat)
    (hp : p.Holds i blk.instructions) : d.Follows p i blk b k x c := by
  induction h generalizing i k with
  | done b => exact ⟨k, SameEnd.refl _⟩
  | @fault i' hx rest b f c hi =>
    exact ⟨i, k, i', hp.head, halts_of_step_error (step_fault hd hx hp.head hi k)⟩
  | @plain i' hx rest b c r e hi hr ih =>
    have hs := sameEnd_of_step (step_plain hd hx hp.head hi k)
    refine follows_of_sameEnd hs ?_ (ih (k + 1) hp.tail)
    rw [Block.length_plain]
    omega
  | @skip l r body rest b x c hz hr ih =>
    have hs := sameEnd_of_step (step_opening hd hp b k)
    rw [if_pos hz] at hs
    refine follows_of_sameEnd hs ?_ (ih (k + 1) hp.behind)
    rw [Block.length_loop]
    omega
  | @inside l r body rest b f c hz hb ih =>
    have hs := sameEnd_of_step (step_opening hd hp b k)
    rw [if_neg hz] at hs
    obtain ⟨ip, k', x, hx, hh⟩ := ih (k + 1) hp.inside
    exact ⟨ip, k', x, hx, (hs _ _).2 hh⟩
  | @again l r body rest b c x e hz hb hl ihb ihl =>
    have hs := sameEnd_of_step (step_opening hd hp b k)
    rw [if_neg hz] at hs
    obtain ⟨k', hk⟩ := ihb (k + 1) hp.inside
    -- At the closing bracket the machine goes on as it would at the opening one.
    have hc := sameEnd_of_step_eq (step_closing hd hp c k')
    exact follows_of_sameEnd ((hs.trans hk).trans hc) rfl (ihl k' hp)

/-! ### From steps to structured execution -/

/-- A machine that halts has executed the block, or has stopped in it. Every part of a block is
reached in fewer steps than the block, so the induction is on their number. -/
theorem runs_of_steps (hd : d.Structured) (n : Nat) {blk : Block} {b : Bench} {k : Nat}
    {e : Except Error Unit} {t : Session} (hp : p.Holds i blk.instructions)
    (h : d.steps n (b.place p i k) = (some e, t)) :
    (∃ c m k', m ≤ n ∧ blk.Runs d b (.ok ()) c ∧
      d.steps m (c.place p (i + blk.length) k') = (some e, t)) ∨
    ∃ f c, blk.Runs d b (.error f) c := by
  induction n using Nat.strongRecOn generalizing blk b i k with
  | ind n ih =>
    cases n with
    | zero => simp [steps] at h
    | succ n =>
      have hn := h
      rw [steps] at h
      cases blk with
      | done => exact .inl ⟨b, n + 1, k, Nat.le_refl _, .done b, hn⟩
      | plain x hx rest =>
        rcases he : d.effectAlone x b with ⟨r, c⟩
        cases r with
        | error f => exact .inr ⟨f, c, .fault he⟩
        | ok u =>
          rw [step_plain hd hx hp.head he] at h
          rcases ih n (by omega) hp.tail h with ⟨c', m, k', hm, hr, hs⟩ | ⟨f, c', hr⟩
          · refine .inl ⟨c', m, k', by omega, .plain he hr, ?_⟩
            rw [Block.length_plain, ← hs]
            congr 2
            omega
          · exact .inr ⟨f, c', .plain he hr⟩
      | loop l r body rest =>
        rw [step_opening hd hp] at h
        dsimp only at h
        by_cases hz : b.cell = 0
        · rw [if_pos hz] at h
          rcases ih n (by omega) hp.behind h with ⟨c, m, k', hm, hr, hs⟩ | ⟨f, c, hr⟩
          · refine .inl ⟨c, m, k', by omega, .skip hz hr, ?_⟩
            rw [Block.length_loop, ← hs]
            congr 2
            omega
          · exact .inr ⟨f, c, .skip hz hr⟩
        · rw [if_neg hz] at h
          rcases ih n (by omega) hp.inside h with ⟨c, m, k', hm, hb, hs⟩ | ⟨f, c, hb⟩
          · cases m with
            | zero => simp [steps] at hs
            | succ m =>
              have hs' : d.steps (m + 1) (c.place p i k') = (some e, t) := by
                rw [← hs, steps, steps, step_closing hd hp]
              rcases ih (m + 1) (by omega) hp hs' with ⟨c', m', k'', hm', hr, hs''⟩ | ⟨f, c', hr⟩
              · exact .inl ⟨c', m', k'', by omega, .again hz hb hr, hs''⟩
              · exact .inr ⟨f, c', .again hz hb hr⟩
          · exact .inr ⟨f, c, .inside hz hb⟩

/-! ### Both directions -/

theorem raises_of_runs (hd : d.Structured) {blk : Block} {b c : Bench} {x : Except Fault Unit}
    (h : blk.Runs d b x c) {f : Fault} (hx : x = .error f) :
    f.OfData ∨ ∃ op, f = .noHandler op := by
  induction h with
  | done b => contradiction
  | @fault i hi rest b g c he =>
    have hr := raises_effect hd.operations hi (b.place #[i] 0 0) g (congrArg Prod.fst he)
    cases hx
    exact hr.imp_right fun hn => ⟨i.op, hn⟩
  | plain _ _ ih => exact ih hx
  | skip _ _ ih => exact ih hx
  | inside _ _ ih => exact ih hx
  | again _ _ _ _ ih => exact ih hx

theorem halts_of_runs_ok (hd : d.Structured) {blk : Block} {b c : Bench}
    (h : blk.Runs d b (.ok ()) c) (k : Nat) :
    ∃ k', d.Halts (b.place blk.program 0 k) (.ok ())
      (c.place blk.program blk.program.size k') := by
  obtain ⟨k', hk⟩ := follows_of_runs hd h k (Program.holds_toArray blk.instructions)
  have hl : 0 + blk.length = blk.program.size := Nat.zero_add _
  rw [hl] at hk
  exact ⟨k', (hk _ _).2 (halts_of_step_false (d.step_end (Nat.le_refl _) c k'))⟩

theorem halts_of_runs_error (hd : d.Structured) {blk : Block} {b c : Bench} {f : Fault}
    (h : blk.Runs d b (.error f) c) (k : Nat) :
    ∃ ip k' x, blk.program[ip]? = some x ∧
      d.Halts (b.place blk.program 0 k) (.error (.runtime f ⟨some x.op, ip, c.tape.ptr⟩))
        (c.place blk.program ip k') :=
  follows_of_runs hd h k (Program.holds_toArray blk.instructions)

theorem runs_of_halts (hd : d.Structured) {blk : Block} {b : Bench} {k : Nat}
    {e : Except Error Unit} {t : Session} (h : d.Halts (b.place blk.program 0 k) e t) :
    (∃ c k', blk.Runs d b (.ok ()) c ∧ e = .ok () ∧
      t = c.place blk.program blk.program.size k') ∨
    ∃ f c, blk.Runs d b (.error f) c := by
  obtain ⟨n, hn⟩ := h
  rcases runs_of_steps hd n (Program.holds_toArray blk.instructions) hn with
    ⟨c, m, k', _, hr, hs⟩ | ⟨f, c, hr⟩
  · have hl : 0 + blk.length = blk.program.size := Nat.zero_add _
    rw [hl] at hs
    have hu := halts_unique ⟨m, hs⟩ (halts_of_step_false (d.step_end (Nat.le_refl _) c k'))
    exact .inl ⟨c, k', hr, hu⟩
  · exact .inr ⟨f, c, hr⟩

theorem runs_ok_iff (hd : d.Structured) (blk : Block) (b c : Bench) (k : Nat) :
    blk.Runs d b (.ok ()) c ↔
      ∃ k', d.Halts (b.place blk.program 0 k) (.ok ())
        (c.place blk.program blk.program.size k') := by
  refine ⟨fun h => halts_of_runs_ok hd h k, ?_⟩
  rintro ⟨k', h⟩
  rcases runs_of_halts hd h with ⟨c', k'', hr, _, ht⟩ | ⟨f, c', hr⟩
  · have hc : c = c' := congrArg Session.bench ht
    exact hc ▸ hr
  · obtain ⟨_, _, _, _, hh⟩ := halts_of_runs_error hd hr k
    have he := (halts_unique h hh).1
    contradiction

theorem runs_error_iff (hd : d.Structured) (blk : Block) (b c : Bench) (f : Fault) (k : Nat) :
    blk.Runs d b (.error f) c ↔
      ∃ ip k' x, blk.program[ip]? = some x ∧
        d.Halts (b.place blk.program 0 k) (.error (.runtime f ⟨some x.op, ip, c.tape.ptr⟩))
          (c.place blk.program ip k') := by
  refine ⟨fun h => halts_of_runs_error hd h k, ?_⟩
  rintro ⟨ip, k', x, _, h⟩
  rcases runs_of_halts hd h with ⟨_, _, _, he, _⟩ | ⟨f', c', hr⟩
  · contradiction
  · obtain ⟨_, _, _, _, hh⟩ := halts_of_runs_error hd hr k
    obtain ⟨he, ht⟩ := halts_unique h hh
    have hc : c = c' := congrArg Session.bench ht
    simp only [Except.error.injEq, Error.runtime.injEq] at he
    rw [he.1, hc]
    exact hr

theorem forall_not_runs_iff (hd : d.Structured) (blk : Block) (b : Bench) (k : Nat) :
    (∀ x c, ¬ blk.Runs d b x c) ↔ ∀ e t, ¬ d.Halts (b.place blk.program 0 k) e t := by
  constructor
  · intro h e t hh
    rcases runs_of_halts hd hh with ⟨c, _, hr, _, _⟩ | ⟨f, c, hr⟩
    · exact h _ c hr
    · exact h _ c hr
  · intro h x c hr
    cases x with
    | ok u =>
      obtain ⟨k', hh⟩ := halts_of_runs_ok hd hr k
      exact h _ _ hh
    | error f =>
      obtain ⟨_, _, _, _, hh⟩ := halts_of_runs_error hd hr k
      exact h _ _ hh

theorem not_halts_unmatchedBracket (hd : d.Structured) (blk : Block) (b : Bench) (k : Nat)
    (direction : Direction) (l : Location) (t : Session) :
    ¬ d.Halts (b.place blk.program 0 k) (.error (.runtime (.unmatchedBracket direction) l)) t := by
  intro h
  rcases runs_of_halts hd h with ⟨_, _, _, he, _⟩ | ⟨f, c, hr⟩
  · contradiction
  · obtain ⟨_, _, _, _, hh⟩ := halts_of_runs_error hd hr k
    have he := (halts_unique h hh).1
    simp only [Except.error.injEq, Error.runtime.injEq] at he
    rcases raises_of_runs hd hr rfl with ho | ⟨op, ho⟩
    · rw [← he.1] at ho
      rcases ho with ho | ho <;> cases ho
    · rw [ho] at he
      exact absurd he.1 (by simp)

/-- Where a dialect binds operations only, stepping through a well-nested program agrees with
its structured execution: both come to the end with the same tape and stream, or both stop with
the same fault at the same tape and stream, or neither halts. No bracket is ever unmatched. -/
theorem halts_iff_runs (hd : d.Structured) (blk : Block) (b : Bench) (k : Nat) :
    (∀ c, blk.Runs d b (.ok ()) c ↔
      ∃ k', d.Halts (b.place blk.program 0 k) (.ok ())
        (c.place blk.program blk.program.size k')) ∧
    (∀ f c, blk.Runs d b (.error f) c ↔
      ∃ ip k' x, blk.program[ip]? = some x ∧
        d.Halts (b.place blk.program 0 k) (.error (.runtime f ⟨some x.op, ip, c.tape.ptr⟩))
          (c.place blk.program ip k')) ∧
    ((∀ x c, ¬ blk.Runs d b x c) ↔ ∀ n, (d.steps n (b.place blk.program 0 k)).1 = none) ∧
    ∀ direction l t,
      ¬ d.Halts (b.place blk.program 0 k) (.error (.runtime (.unmatchedBracket direction) l)) t := by
  refine ⟨fun c => runs_ok_iff hd blk b c k, fun f c => runs_error_iff hd blk b c f k, ?_,
    not_halts_unmatchedBracket hd blk b k⟩
  rw [← forall_not_halts_iff]
  exact forall_not_runs_iff hd blk b k

theorem structured_tettette : Catalog.tettette.Structured where
  noStepHook := rfl
  noStepLimit := rfl
  opn_unbound := by decide
  cls_unbound := by decide
  operations := bindsOperations_of_all (by decide)

/-- A loop around a loop, `[>[-]<-]`. -/
def nestedLoops : Block :=
  .loop none none
    (.plain ⟨.nxt, none⟩ rfl
      (.loop none none (.plain ⟨.dec, none⟩ rfl .done)
        (.plain ⟨.prv, none⟩ rfl (.plain ⟨.dec, none⟩ rfl .done))))
    .done

theorem nestedLoops_halts :
    Catalog.tettette.Structured ∧
    ∃ k', Catalog.tettette.Halts
      (Bench.place ⟨⟨#[1, 2], 0, 0, 255, false, .error⟩, {}⟩ nestedLoops.program 0 0) (.ok ())
      (Bench.place ⟨⟨#[0, 0], 0, 0, 255, false, .error⟩, {}⟩ nestedLoops.program 8 k') := by
  refine ⟨structured_tettette, ((halts_iff_runs structured_tettette nestedLoops _ _).1 _).1 ?_⟩
  have inner : (Block.loop none none (.plain ⟨.dec, none⟩ rfl .done)
      (.plain ⟨.prv, none⟩ rfl (.plain ⟨.dec, none⟩ rfl .done))).Runs Catalog.tettette
        ⟨⟨#[1, 2], 1, 0, 255, false, .error⟩, {}⟩ (.ok ())
        ⟨⟨#[0, 0], 0, 0, 255, false, .error⟩, {}⟩ :=
    .again (by decide) (.plain rfl (.done _))
      (.again (by decide) (.plain rfl (.done _))
        (.skip rfl (.plain rfl (.plain rfl (.done _)))))
  exact .again (by decide) (.plain rfl inner) (.skip rfl (.done _))

end Dialect

end TapeDialects
