import TapeDialects.Proofs.Machine.Jump
import TapeDialects.Proofs.Program.Block

/-!
# Partners of brackets

Two brackets are partners if what stands between them is well nested (`Program.Partners`). This
says nothing of a direction or of a depth; both searches find the partners that it names and no
others, also in a program that is not well nested as a whole.

A search that is some loops deep has still to leave them: up to the bracket that it ends at there
is one well-nested stretch for each of these loops, with the bracket that leaves it, and one
more (`Program.Unclosed`, `Program.Unopened`). That is what an answer of either search tells, by
induction along the search. At depth zero a single stretch is left, and a search passes over
that without a trace, so the two statements meet.
-/

namespace TapeDialects

namespace Program

variable {p : Program} {i j k depth : Nat} {x : Instruction}

def opAt? (p : Program) (i : Nat) : Option Opcode := p[i]?.map (·.op)

theorem opAt?_eq_some_iff {op : Opcode} :
    p.opAt? i = some op ↔ ∃ x, p[i]? = some x ∧ x.op = op :=
  Option.map_eq_some_iff

theorem lt_size_of_opAt? {op : Opcode} (h : p.opAt? i = some op) : i < p.size := by
  obtain ⟨x, hx, -⟩ := opAt?_eq_some_iff.1 h
  exact (Array.getElem?_eq_some_iff.1 hx).1

/-! ### Well-nested stretches -/

/-- The instructions from index `i` up to index `j` are those of a block. -/
def WellNested (p : Program) (i j : Nat) : Prop :=
  ∃ b : Block, p.Holds i b.instructions ∧ i + b.length = j

namespace WellNested

theorem refl (p : Program) (i : Nat) : p.WellNested i i := ⟨.done, .nil p i, rfl⟩

theorem trans (h : p.WellNested i j) (h' : p.WellNested j k) : p.WellNested i k := by
  obtain ⟨a, ha, rfl⟩ := h
  obtain ⟨b, hb, rfl⟩ := h'
  refine ⟨a.append b, ?_, ?_⟩
  · rw [Block.instructions_append]
    exact ha.append hb
  · rw [Block.length_append, Nat.add_assoc]

theorem plain (hx : p[i]? = some x) (h : x.op.isBracket = false) : p.WellNested i (i + 1) :=
  ⟨.plain x h .done, .cons hx (.nil p _), rfl⟩

theorem loop (ho : p.opAt? i = some .opn) (h : p.WellNested (i + 1) j)
    (hc : p.opAt? j = some .cls) : p.WellNested i (j + 1) := by
  obtain ⟨⟨_, l⟩, hi, rfl⟩ := opAt?_eq_some_iff.1 ho
  obtain ⟨⟨_, r⟩, hj, rfl⟩ := opAt?_eq_some_iff.1 hc
  obtain ⟨b, hb, rfl⟩ := h
  refine ⟨.loop l r b .done, .cons hi (hb.append (.cons hj (.nil p _))), ?_⟩
  rw [Block.length_loop]
  show i + (b.length + 0 + 2) = _
  omega

theorem le (h : p.WellNested i j) : i ≤ j := by
  obtain ⟨b, -, rfl⟩ := h
  exact Nat.le_add_right _ _

end WellNested

/-- The brackets at two indices belong to each other. -/
structure Partners (p : Program) (i j : Nat) : Prop where
  lt : i < j
  opening : p.opAt? i = some .opn
  closing : p.opAt? j = some .cls
  inside : p.WellNested (i + 1) j

/-! ### The search for a closing bracket -/

/-- From `i` up to `j`, the loops that a search has entered are left one after the other. -/
def Unclosed (p : Program) : (depth : Nat) → (i j : Nat) → Prop
  | 0, i, j => p.WellNested i j
  | depth + 1, i, j =>
    ∃ k, p.WellNested i k ∧ p.opAt? k = some .cls ∧ p.Unclosed depth (k + 1) j

theorem Unclosed.after (h : p.WellNested i j) (hu : p.Unclosed depth j k) :
    p.Unclosed depth i k := by
  cases depth with
  | zero => exact h.trans hu
  | succ depth =>
    obtain ⟨n, hn, hc, hr⟩ := hu
    exact ⟨n, h.trans hn, hc, hr⟩

theorem unclosed_of_closerFrom? (h : p.closerFrom? depth i = some j) :
    p.Unclosed depth i j ∧ p.opAt? j = some .cls := by
  fun_induction closerFrom? p depth i with
  | case1 depth i hi ho ih =>
    -- The loop that opens here is the first one to be left.
    obtain ⟨⟨k, hk, hc, hr⟩, hj⟩ := ih h
    have hop : p.opAt? i = some .opn := opAt?_eq_some_iff.2 ⟨_, Array.getElem?_eq_getElem hi, ho⟩
    exact ⟨hr.after (.loop hop hk hc), hj⟩
  | case2 i hi hc =>
    cases h
    exact ⟨WellNested.refl p _, opAt?_eq_some_iff.2 ⟨_, Array.getElem?_eq_getElem hi, hc⟩⟩
  | case3 i hi hc depth ih =>
    obtain ⟨hu, hj⟩ := ih h
    have hop : p.opAt? i = some .cls := opAt?_eq_some_iff.2 ⟨_, Array.getElem?_eq_getElem hi, hc⟩
    exact ⟨⟨i, .refl p i, hop, hu⟩, hj⟩
  | case4 depth i hi hno hnc ih =>
    obtain ⟨hu, hj⟩ := ih h
    have hx : p[i].op.isBracket = false := by simp_all [Opcode.isBracket]
    exact ⟨hu.after (.plain (Array.getElem?_eq_getElem hi) hx), hj⟩
  | case5 => contradiction

theorem closerFrom?_eq_some_iff :
    p.closerFrom? 0 i = some j ↔ p.WellNested i j ∧ p.opAt? j = some .cls := by
  refine ⟨unclosed_of_closerFrom?, ?_⟩
  rintro ⟨⟨b, hb, rfl⟩, hc⟩
  obtain ⟨x, hx, hop⟩ := opAt?_eq_some_iff.1 hc
  rw [closerFrom?_block hb, closerFrom?_step hx, hop]

/-! ### The search for an opening bracket -/

/-- From `j` back to `i`, the loops that a search has entered are left one after the other. -/
def Unopened (p : Program) : (depth : Nat) → (i j : Nat) → Prop
  | 0, i, j => p.WellNested i j
  | depth + 1, i, j =>
    ∃ k, p.Unopened depth i k ∧ p.opAt? k = some .opn ∧ p.WellNested (k + 1) j

theorem Unopened.before (hu : p.Unopened depth i j) (h : p.WellNested j k) :
    p.Unopened depth i k := by
  cases depth with
  | zero => exact hu.trans h
  | succ depth =>
    obtain ⟨n, hr, ho, hn⟩ := hu
    exact ⟨n, hr, ho, hn.trans h⟩

theorem unopened_of_openerBefore? (hj : j ≤ p.size) (h : p.openerBefore? depth j = some i) :
    p.Unopened depth (i + 1) j ∧ p.opAt? i = some .opn := by
  fun_induction openerBefore? p depth j with
  | case1 => contradiction
  | case2 depth j hc ih =>
    -- The loop that closes here is the first one to be left.
    obtain ⟨⟨k, hr, ho, hk⟩, hi⟩ := ih (by omega) h
    exact ⟨hr.before (.loop ho hk hc), hi⟩
  | case3 j ho =>
    cases h
    exact ⟨WellNested.refl p _, ho⟩
  | case4 j ho depth ih =>
    obtain ⟨hu, hi⟩ := ih (by omega) h
    exact ⟨⟨j, hu, ho, .refl p _⟩, hi⟩
  | case5 depth j hnc hno ih =>
    obtain ⟨hu, hi⟩ := ih (by omega) h
    have hx : p[j]? = some p[j] := Array.getElem?_eq_getElem hj
    have hb : p[j].op.isBracket = false := by simp_all [Opcode.isBracket]
    exact ⟨hu.before (.plain hx hb), hi⟩

theorem openerBefore?_eq_some_iff (hj : j ≤ p.size) :
    p.openerBefore? 0 j = some i ↔ p.WellNested (i + 1) j ∧ p.opAt? i = some .opn := by
  refine ⟨unopened_of_openerBefore? hj, ?_⟩
  rintro ⟨⟨b, hb, rfl⟩, ho⟩
  obtain ⟨x, hx, hop⟩ := opAt?_eq_some_iff.1 ho
  rw [openerBefore?_block hb, openerBefore?_step hx, hop]

/-! ### Partners -/

theorem partners_iff_closerFrom? (ho : p.opAt? i = some .opn) :
    p.Partners i j ↔ p.closerFrom? 0 (i + 1) = some j := by
  rw [closerFrom?_eq_some_iff]
  exact ⟨fun h => ⟨h.inside, h.closing⟩, fun h => ⟨h.1.le, ho, h.2, h.1⟩⟩

theorem partners_iff_openerBefore? (hc : p.opAt? j = some .cls) :
    p.Partners i j ↔ p.openerBefore? 0 (min j p.size) = some i := by
  have hj : j ≤ p.size := Nat.le_of_lt (lt_size_of_opAt? hc)
  rw [Nat.min_eq_left hj, openerBefore?_eq_some_iff hj]
  exact ⟨fun h => ⟨h.inside, h.opening⟩, fun h => ⟨h.1.le, h.2, hc, h.1⟩⟩

end Program

namespace Machine

variable {m : Machine} {i j : Nat}

theorem answer_iff (found : Option Nat) (direction : Direction) (m : Machine) :
    let answer : Except Fault Unit × Machine :=
      match found with
      | some i => (.ok (), { m with ip := i })
      | none => (.error (.unmatchedBracket direction), m)
    (∀ j, answer = (.ok (), { m with ip := j }) ↔ found = some j) ∧
      (answer = (.error (.unmatchedBracket direction), m) ↔ found = none) := by
  cases found <;> simp

theorem jumpForward_iff (ho : m.program.opAt? i = some .opn) :
    (∀ j, jumpForward { m with ip := i } = (.ok (), { m with ip := j }) ↔
      m.program.Partners i j) ∧
    (jumpForward { m with ip := i } =
        (.error (.unmatchedBracket .forward), { m with ip := i }) ↔
      ∀ j, ¬ m.program.Partners i j) := by
  simp only [Program.partners_iff_closerFrom? ho, ← Option.eq_none_iff_forall_ne_some]
  exact answer_iff (m.program.closerFrom? 0 (i + 1)) .forward { m with ip := i }

theorem jumpBackward_iff (hc : m.program.opAt? j = some .cls) :
    (∀ i, jumpBackward { m with ip := j } = (.ok (), { m with ip := i }) ↔
      m.program.Partners i j) ∧
    (jumpBackward { m with ip := j } =
        (.error (.unmatchedBracket .backward), { m with ip := j }) ↔
      ∀ i, ¬ m.program.Partners i j) := by
  simp only [Program.partners_iff_openerBefore? hc, ← Option.eq_none_iff_forall_ne_some]
  exact answer_iff (m.program.openerBefore? 0 (min j m.program.size)) .backward { m with ip := j }

/-- A jump from a bracket finds its partner and nothing else: it succeeds exactly if there is one,
which is then the only one, moves the pointer to it and changes nothing besides; otherwise it
changes nothing at all. So from either bracket of a pair the jumps lead to the other. -/
theorem jumps_between_partners (m : Machine) (i : Nat) :
    (m.program.opAt? i = some .opn →
      (∀ j, jumpForward { m with ip := i } = (.ok (), { m with ip := j }) ↔
        m.program.Partners i j) ∧
      (∀ j k, m.program.Partners i j → m.program.Partners i k → j = k) ∧
      ((∀ j, ¬ m.program.Partners i j) ↔
        jumpForward { m with ip := i } =
          (.error (.unmatchedBracket .forward), { m with ip := i }))) ∧
    (m.program.opAt? i = some .cls →
      (∀ j, jumpBackward { m with ip := i } = (.ok (), { m with ip := j }) ↔
        m.program.Partners j i) ∧
      (∀ j k, m.program.Partners j i → m.program.Partners k i → j = k) ∧
      ((∀ j, ¬ m.program.Partners j i) ↔
        jumpBackward { m with ip := i } =
          (.error (.unmatchedBracket .backward), { m with ip := i }))) ∧
    (m.program.opAt? i = some .opn → ∀ j, m.program.opAt? j = some .cls →
      (jumpForward { m with ip := i } = (.ok (), { m with ip := j }) ↔
        jumpBackward { m with ip := j } = (.ok (), { m with ip := i }))) := by
  refine ⟨fun ho => ?_, fun hc => ?_, fun ho j hc => ?_⟩
  · obtain ⟨hok, herror⟩ := jumpForward_iff ho
    refine ⟨hok, fun j k hj hk => ?_, herror.symm⟩
    rw [Program.partners_iff_closerFrom? ho] at hj hk
    exact Option.some.inj (hj.symm.trans hk)
  · obtain ⟨hok, herror⟩ := jumpBackward_iff hc
    refine ⟨hok, fun j k hj hk => ?_, herror.symm⟩
    rw [Program.partners_iff_openerBefore? hc] at hj hk
    exact Option.some.inj (hj.symm.trans hk)
  · rw [(jumpForward_iff ho).1, (jumpBackward_iff hc).1]

/-- The inner loop of a program whose outer one is never closed. -/
theorem jumps_between_partners_unclosed :
    let m : Machine :=
      { Machine.ofConfig { tapeSize := 1 } with program := .ofOpcodes [.opn, .opn, .inc, .cls] }
    (m.program.opAt? 0 = some .opn ∧ ∀ j, ¬ m.program.Partners 0 j) ∧
      (m.program.opAt? 1 = some .opn ∧ m.program.opAt? 3 = some .cls ∧ m.program.Partners 1 3) ∧
      jumpForward { m with ip := 1 } = (.ok (), { m with ip := 3 }) ∧
      jumpBackward { m with ip := 3 } = (.ok (), { m with ip := 1 }) := by
  intro m
  have hp : m.program.Partners 1 3 :=
    ⟨by decide, rfl, rfl, .plain (x := ⟨.inc, none⟩) rfl rfl⟩
  have hnone : jumpForward { m with ip := 0 } =
      (.error (.unmatchedBracket .forward), { m with ip := 0 }) := by
    have hs : m.program.closerFrom? 0 (0 + 1) = none := by decide +kernel
    rw [jumpForward, hs]
  obtain ⟨hforward, -, hback⟩ := jumps_between_partners m 1
  have hjump := ((hforward rfl).1 3).2 hp
  exact ⟨⟨rfl, ((jumps_between_partners m 0).1 rfl).2.2.2 hnone⟩, ⟨rfl, rfl, hp⟩, hjump,
    (hback rfl 3 rfl).1 hjump⟩

end Machine

end TapeDialects
