import Mathlib.Algebra.Group.Nat.Defs
import TapeDialects.Proofs.Run.Sound
import TapeDialects.Proofs.Run.Structured
import TapeDialects.Proofs.Tape.Bitwise

/-!
# Loops that clear their cell

Where every loop ends with one that counts its cell down, `[-]`, a program comes to an end, and the
number of instructions it takes is known in advance. The loop `[-]` takes two instructions for each
round and makes fewer rounds than a cell has values, since each round takes one from the bits of the
cell, whether these stand for values with a sign or without. Any other loop finds a zero at its
closing bracket, so its body is executed once at most (`Dialect.within_loop`).

No instruction is executed twice by one pass over a program without `[-]`, so the bound is the
length of the program times the bound of one `[-]`.
-/

namespace TapeDialects

open Act

/-- Instructions that are no brackets, and loops that end with `[-]`. -/
inductive Clearing : List Instruction → Prop where
  | nil : Clearing []
  | leaf {xs : List Instruction} {x : Instruction}
    (hx : x.op ∈ [.nxt, .prv, .inc, .dec, .put, .get]) : Clearing xs → Clearing (xs ++ [x])
  | loop {xs body : List Instruction} (l₁ l₂ l₃ l₄ l₅ : Option String) :
    Clearing xs → Clearing body →
      Clearing (xs ++ ⟨.opn, l₁⟩ :: (body ++ [⟨.opn, l₂⟩, ⟨.dec, l₃⟩, ⟨.cls, l₄⟩, ⟨.cls, l₅⟩]))

/-- A loop that ends with `[-]`. -/
def Block.clearing (l₁ l₂ l₃ l₄ l₅ : Option String) (body : Block) : Block :=
  .loop l₁ l₅ (body.append (.loop l₂ l₄ (.plain ⟨.dec, l₃⟩ rfl .done) .done)) .done

theorem Block.instructions_clearing (l₁ l₂ l₃ l₄ l₅ : Option String) (body : Block) :
    (clearing l₁ l₂ l₃ l₄ l₅ body).instructions =
      ⟨.opn, l₁⟩ :: (body.instructions ++ [⟨.opn, l₂⟩, ⟨.dec, l₃⟩, ⟨.cls, l₄⟩, ⟨.cls, l₅⟩]) := by
  simp [clearing, instructions_append, instructions]

theorem Block.length_clearing (l₁ l₂ l₃ l₄ l₅ : Option String) (body : Block) :
    (clearing l₁ l₂ l₃ l₄ l₅ body).length = body.length + 5 := by
  simp [length, instructions_clearing]

theorem Clearing.isBracket_leaf {op : Opcode} (h : op ∈ [.nxt, .prv, .inc, .dec, .put, .get]) :
    op.isBracket = false := by
  revert op
  decide

theorem Clearing.exists_block {xs : List Instruction} (h : Clearing xs) :
    ∃ blk : Block, blk.instructions = xs := by
  induction h with
  | nil => exact ⟨.done, rfl⟩
  | @leaf xs x hx _ ih =>
    obtain ⟨a, rfl⟩ := ih
    exact ⟨a.append (.plain x (isBracket_leaf hx) .done), Block.instructions_append _ _⟩
  | @loop xs body l₁ l₂ l₃ l₄ l₅ _ _ iha ihb =>
    obtain ⟨a, rfl⟩ := iha
    obtain ⟨b, rfl⟩ := ihb
    exact ⟨a.append (.clearing l₁ l₂ l₃ l₄ l₅ b), by
      rw [Block.instructions_append, Block.instructions_clearing]⟩

namespace Dialect

variable {d : Dialect} {p : Program} {n m i j l : Nat} {Q R : Bench → Prop} {b c : Bench}

/-! ### Places that are reached in time -/

/-- From place `i` of the program the machine comes to place `j`, where `Q` holds, or it stops with
a fault that is no unmatched bracket, and executes at most `n` instructions until then. -/
def Within (d : Dialect) (p : Program) (n i j : Nat) (Q : Bench → Prop) (b : Bench) : Prop :=
  ∀ k, ∃ e ≤ n,
    (∃ c, d.steps e (b.place p i k) = (none, c.place p j (k + e)) ∧ Q c) ∨
    ∃ f l s, d.steps e (b.place p i k) = (some (.error (.runtime f l)), s) ∧
      ∀ direction, f ≠ .unmatchedBracket direction

theorem within_here (h : Q b) : d.Within p 0 i i Q b :=
  fun _ => ⟨0, Nat.le_refl 0, .inl ⟨b, rfl, h⟩⟩

theorem Within.le (h : d.Within p n i j Q b) (hn : n ≤ m) : d.Within p m i j Q b := by
  intro k
  obtain ⟨e, he, hend⟩ := h k
  exact ⟨e, by omega, hend⟩

theorem Within.bind (h : d.Within p n i j Q b) (hnext : ∀ c, Q c → d.Within p m j l R c) :
    d.Within p (n + m) i l R b := by
  intro k
  obtain ⟨e, he, ⟨c, hs, hc⟩ | hfault⟩ := h k
  · obtain ⟨e', he', hend⟩ := hnext c hc (k + e)
    refine ⟨e + e', by omega, ?_⟩
    rwa [steps_add hs, ← Nat.add_assoc]
  · exact ⟨e, by omega, .inr hfault⟩

theorem within_of_step (h : ∀ k, d.step (b.place p i k) = (.ok true, c.place p j (k + 1)))
    (hc : Q c) : d.Within p 1 i j Q b :=
  fun k => ⟨1, Nat.le_refl 1, .inl ⟨c, by simp [steps, h], hc⟩⟩

/-- Places that the machine leaves by the same step are as far from a third one. -/
theorem Within.of_step_eq (h : d.Within p n i j Q b) (hi : i ≠ j)
    (hs : ∀ k, d.step (b.place p l k) = d.step (b.place p i k)) : d.Within p n l j Q b := by
  intro k
  obtain ⟨e, he, hend⟩ := h k
  cases e with
  | zero =>
    obtain ⟨c, hc, _⟩ | ⟨_, _, _, hf, _⟩ := hend
    · exact absurd (congrArg (fun r => r.2.machine.ip) hc) hi
    · cases hf
  | succ e =>
    refine ⟨e + 1, he, ?_⟩
    rwa [steps, hs, ← steps]

/-! ### Instructions that are no brackets -/

theorem within_plain (hd : d.Structured) {x : Instruction} (hx : x.op.isBracket = false)
    (h : p[i]? = some x) (hQ : ∀ c, d.effectAlone x b = (.ok (), c) → Q c) :
    d.Within p 1 i (i + 1) Q b := by
  rcases he : d.effectAlone x b with ⟨r, c⟩
  cases r with
  | ok u => exact within_of_step (step_plain hd hx h he) (hQ c he)
  | error f =>
    have hf := raises_effect hd.operations hx (b.place #[x] 0 0) f (congrArg Prod.fst he)
    refine fun k => ⟨1, Nat.le_refl 1, .inr ⟨f, ⟨some x.op, i, c.tape.ptr⟩, c.place p i k, ?_, ?_⟩⟩
    · simp [steps, step_fault hd hx h he]
    rintro direction rfl
    rcases hf with (hf | hf) | hf <;> cases hf

theorem conforms_effectAlone (hl : d.Uses Handler.isLibrary) {x : Instruction}
    {r : Except Fault Unit} (hb : b.tape.Conforms d.config) (he : d.effectAlone x b = (r, c)) :
    c.tape.Conforms d.config := by
  have hs : (b.place #[x] 0 0).Sound d.config 0 := ⟨hb, Nat.zero_le _⟩
  have hk := keeps_effect hl (Nat.zero_le 1) x.op _ hs
  cases he
  exact hk.conforms

/-! ### Loops -/

section Loop

variable {l r : Option String} {body rest : Block}

/-- A loop that finds a zero at its closing bracket executes its body once at most. -/
theorem within_loop (hd : d.Structured)
    (hp : p.Holds i (Block.loop l r body rest).instructions)
    (hbody : d.Within p n (i + 1) (i + 1 + body.length) (fun c => Q c ∧ c.cell = 0) b)
    (hb : Q b) : d.Within p (n + 2) i (i + 1 + body.length + 1) Q b := by
  by_cases hz : b.cell = 0
  · refine (within_of_step (fun k => ?_) hb).le (by omega)
    rw [step_opening hd hp, if_pos hz]
  · have hopen : d.Within p 1 i (i + 1) (· = b) b := by
      refine within_of_step (fun k => ?_) rfl
      rw [step_opening hd hp, if_neg hz]
    have hclose : ∀ c, Q c ∧ c.cell = 0 →
        d.Within p 1 (i + 1 + body.length) (i + 1 + body.length + 1) Q c := by
      intro c ⟨hc, hcz⟩
      refine within_of_step (fun k => ?_) hc
      rw [step_closing hd hp, step_opening hd hp, if_pos hcz]
    refine (hopen.bind (m := n + 1) ?_).le (by omega)
    rintro _ rfl
    exact hbody.bind hclose

end Loop

/-! ### Counting a cell down -/

theorem toNat_bits_eq_zero_iff (hb : b.tape.Conforms d.config) :
    (d.config.bits b.cell).toNat = 0 ↔ b.cell = 0 := by
  have hcell : d.config.Fits b.cell := hb.get_mem
  have hzero : d.config.Fits 0 :=
    ⟨d.config.cellMin_nonpos, d.config.cellMax_nonneg d.config_valid.cellWidth_pos⟩
  have hbits : (d.config.bits 0).toNat = 0 := by simp [MachineConfig.bits]
  constructor
  · intro h
    exact (d.config_valid.represents hzero).unique _ hcell (BitVec.toNat_inj.1 (h.trans hbits.symm))
  · intro h
    rw [h, hbits]

/-- Whether a value is reduced or not, one less has bits that are one less. -/
theorem toNat_bits_dec (hh : d.handler? .dec = none) {literal : Option String}
    (hb : b.tape.Conforms d.config) (hm : (d.config.bits b.cell).toNat = m + 1)
    (he : d.effectAlone ⟨.dec, literal⟩ b = (.ok (), c)) :
    (d.config.bits c.cell).toNat = m := by
  have hdec := effectAlone_ofTape (i := ⟨.dec, literal⟩) (x := Tape.add (-1)) hh rfl b
  rw [hdec, Tape.add] at he
  cases hf : b.tape.fit (b.tape.get + -1) with
  | error f =>
    rw [Tape.set_apply_error hf] at he
    cases he
  | ok w =>
    rw [Tape.set_apply_ok hf] at he
    cases he
    have hcell : (b.tape.withCell w).get = w := hb.get_withCell w
    have hw : (d.config.bits w).toNat = m := by
      have hv : (m : Int) + 1 = b.tape.get % d.config.valueCount := by
        rw [← d.config.toNat_bits, ← Bench.cell, hm]
        rfl
      have hlt := d.config.toNat_lt_valueCount (d.config.bits b.cell)
      have hw : ((d.config.bits w).toNat : Int) = m := by
        rw [hb.bits_of_fit d.config_valid hf, d.config.toNat_bits, ← Int.emod_add_emod, ← hv]
        simp only [Int.add_neg_cancel_right]
        exact Int.emod_eq_of_lt (by omega) (by omega)
      omega
    rw [Bench.cell]
    exact hcell.symm ▸ hw

section Machine

variable (hd : d.Structured) (hl : d.Uses Handler.isLibrary) (hh : d.handler? .dec = none)
include hd hl hh

/-- As many rounds as the bits of the cell say, and the test that finds the zero. -/
theorem within_clearLoop {r s t : Option String} {rest : Block}
    (hp : p.Holds i (Block.loop r t (.plain ⟨.dec, s⟩ rfl .done) rest).instructions)
    (hb : b.tape.Conforms d.config) (hm : (d.config.bits b.cell).toNat = m) :
    d.Within p (2 * m + 1) i (i + 3) (fun c => c.tape.Conforms d.config ∧ c.cell = 0) b := by
  have hopen := step_opening hd hp
  induction m generalizing b with
  | zero =>
    have hz := (toNat_bits_eq_zero_iff hb).1 hm
    refine within_of_step (fun k => ?_) ⟨hb, hz⟩
    rw [hopen, if_pos hz]
    rfl
  | succ m ih =>
    have hz : b.cell ≠ 0 := fun h => by simp [(toNat_bits_eq_zero_iff hb).2 h] at hm
    have henter : d.Within p 1 i (i + 1) (· = b) b := by
      refine within_of_step (fun k => ?_) rfl
      rw [hopen, if_neg hz]
    have hdec : d.Within p 1 (i + 1) (i + 2)
        (fun c => c.tape.Conforms d.config ∧ (d.config.bits c.cell).toNat = m) b :=
      within_plain hd rfl hp.inside.head fun c he =>
        ⟨conforms_effectAlone hl hb he, toNat_bits_dec hh hb hm he⟩
    have hagain : ∀ c, c.tape.Conforms d.config ∧ (d.config.bits c.cell).toNat = m →
        d.Within p (2 * m + 1) (i + 2) (i + 3)
          (fun c => c.tape.Conforms d.config ∧ c.cell = 0) c := fun c ⟨hc, hcm⟩ =>
      (ih hc hcm).of_step_eq (by omega) fun k => step_closing hd hp c k
    refine (henter.bind (m := 1 + (2 * m + 1)) ?_).le (by omega)
    rintro _ rfl
    exact hdec.bind hagain

theorem within_clearing {l₁ l₂ l₃ l₄ l₅ : Option String} {body : Block}
    (hp : p.Holds i (Block.clearing l₁ l₂ l₃ l₄ l₅ body).instructions)
    (hbody : d.Within p n (i + 1) (i + 1 + body.length) (fun c => c.tape.Conforms d.config) b)
    (hb : b.tape.Conforms d.config) :
    d.Within p (n + 2 ^ (d.config.cellWidth + 1) + 1) i (i + (body.length + 5))
      (fun c => c.tape.Conforms d.config) b := by
  have hinside : p.Holds (i + 1) (body.instructions ++ _) :=
    Block.instructions_append _ _ ▸ hp.inside
  have hclear : ∀ c, c.tape.Conforms d.config →
      d.Within p (2 ^ (d.config.cellWidth + 1) - 1) (i + 1 + body.length) (i + 1 + body.length + 3)
        (fun c => c.tape.Conforms d.config ∧ c.cell = 0) c := by
    intro c hc
    have hlt := (d.config.bits c.cell).isLt
    exact (within_clearLoop hd hl hh hinside.right hc rfl).le (by omega)
  have hlength : i + 1 + body.length + 3 = i + 1 + (body.append (.loop l₂ l₄
      (.plain ⟨.dec, l₃⟩ rfl .done) .done)).length := by
    rw [Block.length_append]
    rfl
  have hwhole := hbody.bind hclear
  rw [hlength] at hwhole
  have hloop := within_loop hd hp hwhole hb
  have hend : i + (body.length + 5) = i + 1 + body.length + 3 + 1 := by omega
  have hpos : 0 < 2 ^ (d.config.cellWidth + 1) := Nat.two_pow_pos _
  rw [← hlength] at hloop
  rw [hend]
  exact hloop.le (by omega)

/-- The bound of `[-]` is one for every instruction. -/
theorem within_of_clearing {xs : List Instruction} (hxs : Clearing xs) (hp : p.Holds i xs)
    (hb : b.tape.Conforms d.config) :
    d.Within p (xs.length * 2 ^ (d.config.cellWidth + 1)) i (i + xs.length)
      (fun c => c.tape.Conforms d.config) b := by
  have hpos : 0 < 2 ^ (d.config.cellWidth + 1) := Nat.two_pow_pos _
  induction hxs generalizing i b with
  | nil => exact (within_here hb).le (Nat.zero_le _)
  | @leaf xs x hx _ ih =>
    have hleaf : ∀ c, c.tape.Conforms d.config →
        d.Within p 1 (i + xs.length) (i + xs.length + 1) (fun c => c.tape.Conforms d.config) c :=
      fun c hc => within_plain hd (Clearing.isBracket_leaf hx) hp.right.head
        fun _ he => conforms_effectAlone hl hc he
    rw [List.length_append, List.length_singleton, Nat.add_mul, Nat.one_mul]
    exact ((ih hp.left hb).bind hleaf).le (by omega)
  | @loop xs body l₁ l₂ l₃ l₄ l₅ _ hbody iha ihb =>
    obtain ⟨blk, rfl⟩ := hbody.exists_block
    rw [← Block.instructions_clearing] at hp ⊢
    have hinside : p.Holds (i + xs.length + 1) (blk.instructions ++ _) :=
      Block.instructions_append _ _ ▸ hp.right.inside
    have hloop := (iha hp.left hb).bind fun c hc =>
      within_clearing hd hl hh hp.right (ihb hinside.left hc) hc
    rw [List.length_append, ← Block.length, Block.length_clearing, ← Nat.add_assoc i]
    refine hloop.le ?_
    rw [← Block.length]
    simp only [Nat.add_mul]
    omega

end Machine

/-! ### Whole programs -/

theorem structured_of_no_handlers (hh : d.handlers = []) (hs : d.hooks.step = none)
    (hl : d.config.stepLimit = none) : d.Structured where
  noStepHook := hs
  noStepLimit := hl
  opn_unbound := by simp [handler?, hh]
  cls_unbound := by simp [handler?, hh]
  operations := by simp [BindsOperations, handler?, hh]

/-- Where all loops end with `[-]` and the dialect has nothing but the core, a program halts within
twice as many instructions for each of its own as a cell has values, whatever is on the tape and in
the input. It comes to its end or stops with a fault, and no bracket is unmatched. -/
theorem halts_of_clearing (hh : d.handlers = []) (hk : d.hooks = {})
    (hl : d.config.stepLimit = none) (hp : Clearing p.toList) {t : Tape}
    (ht : t.Conforms d.config) (stream : Stream) (k : Nat) :
    ∃ n ≤ p.size * 2 ^ (d.config.cellWidth + 1), ∃ s,
      (d.steps n ⟨⟨t, p, 0, k⟩, stream⟩ = (none, s) ∧ s.machine.ip = p.size ∧
        s.machine.steps = k + n ∧ d.Halts ⟨⟨t, p, 0, k⟩, stream⟩ (.ok ()) s) ∨
      ∃ f l, d.steps n ⟨⟨t, p, 0, k⟩, stream⟩ = (some (.error (.runtime f l)), s) ∧
        ∀ direction, f ≠ .unmatchedBracket direction := by
  have hd := structured_of_no_handlers hh (by rw [hk]) hl
  have huses : d.Uses Handler.isLibrary :=
    uses_of_all (by simp [hh]) (by simp [hk]) (by simp [hk]) (by simp [hk])
  have hdec : d.handler? .dec = none := by simp [handler?, hh]
  have hat : p.Holds 0 p.toList := Program.holds_toArray p.toList
  obtain ⟨n, hn, ⟨c, hs, _⟩ | ⟨f, l, s, hs, hf⟩⟩ :=
    within_of_clearing hd huses hdec hp hat (b := ⟨t, stream⟩) ht k
  · have hn' : d.steps n ⟨⟨t, p, 0, k⟩, stream⟩ = (none, c.place p p.size (k + n)) := by
      rw [Nat.zero_add, Array.length_toList] at hs
      exact hs
    refine ⟨n, hn, c.place p p.size (k + n), .inl ⟨hn', rfl, rfl, n + 1, ?_⟩⟩
    rw [steps_add hn', steps, step_end d (Nat.le_refl _)]
  · exact ⟨n, hn, s, .inr ⟨f, l, hs, hf⟩⟩

/-- The program `+[>,[-]]`, which may have to count a cell down from its greatest value. -/
def clearingReader : Program :=
  #[⟨.inc, none⟩, ⟨.opn, none⟩, ⟨.nxt, none⟩, ⟨.get, none⟩, ⟨.opn, none⟩, ⟨.dec, none⟩,
    ⟨.cls, none⟩, ⟨.cls, none⟩]

theorem clearing_clearingReader : Clearing clearingReader.toList :=
  .loop none none none none none (.leaf (x := ⟨.inc, none⟩) (by decide) .nil)
    (.leaf (x := ⟨.get, none⟩) (by decide) (.leaf (x := ⟨.nxt, none⟩) (by decide) .nil))

theorem halts_of_clearing_clearingReader :
    let d := Catalog.brainfuck
    let s := Session.mk ⟨.ofConfig d.config, clearingReader, 0, 0⟩ (.ofBytes [255])
    d.handlers = [] ∧ d.hooks = {} ∧ d.config.stepLimit = none ∧
    (Tape.ofConfig d.config).Conforms d.config ∧
    ∃ n ≤ 8 * 2 ^ 9, ∃ s',
      (d.steps n s = (none, s') ∧ s'.machine.ip = 8 ∧ s'.machine.steps = 0 + n ∧
        d.Halts s (.ok ()) s') ∨
      ∃ f l, d.steps n s = (some (.error (.runtime f l)), s') ∧
        ∀ direction, f ≠ .unmatchedBracket direction := by
  intro d s
  have ht : (Tape.ofConfig d.config).Conforms d.config := Tape.conforms_ofConfig d.config_valid
  exact ⟨rfl, rfl, rfl, ht, halts_of_clearing rfl rfl rfl clearing_clearingReader ht _ 0⟩

end Dialect

end TapeDialects
