import Mathlib.Data.List.Basic
import TapeDialects.Definition

/-!
# Dialects from definitions

A definition describes a dialect exactly if it is well formed. Building checks this in stages: the
names of the opcodes, the table, the names in the regions, and then the draft as a whole. What is
wrong with a definition is the list of its violations, in the order of the checks; each of them is
stated on its own, also behind a check that has failed. Building reports the first one, and where
there is none the dialect is the one that is described (`build_describes_or_reports`).

All stages follow one pattern, `Checks`: fail with the first violation, or else have a result with
some property. Sequences of such stages have the violations of both.
-/

namespace TapeDialects

/-! ### Checks in an order -/

/-- The violation of a check that has to be met. -/
def unmet (check : Prop) [Decidable check] (e : Error) : List Error := if check then [] else [e]

@[simp] theorem unmet_eq_nil_iff {check : Prop} [Decidable check] {e : Error} :
    unmet check e = [] ↔ check := by
  simp [unmet]

@[simp] theorem mem_unmet {check : Prop} [Decidable check] {e e' : Error} :
    e' ∈ unmet check e ↔ ¬ check ∧ e' = e := by
  unfold unmet
  split <;> simp_all

theorem head?_unmet (check : Prop) [Decidable check] (e : Error) :
    (unmet check e).head? = if check then none else some e := by
  unfold unmet
  split <;> rfl

theorem head?_flatMap_unmet {α : Type} (p : α → Prop) [DecidablePred p] (e : α → Error)
    (as : List α) :
    (as.flatMap fun a => unmet (p a) (e a)).head? = (as.find? fun a => ¬ p a).map e := by
  induction as with
  | nil => rfl
  | cons a as ih =>
    rw [List.flatMap_cons, List.head?_append, head?_unmet, ih]
    by_cases h : p a <;> simp [h]

/-- What is computed fails with the first violation; if there is none, it has a result with `P`. -/
def Checks {α : Type} (x : Except Error α) (violations : List Error) (P : α → Prop) : Prop :=
  match violations.head? with
  | some e => x = .error e
  | none => ∃ a, x = .ok a ∧ P a

namespace Checks

variable {α β : Type} {x : Except Error α} {f : α → Except Error β} {v w : List Error}
  {P : α → Prop} {Q : β → Prop}

/-- The second stage runs behind checks that are all met. -/
theorem bind (hx : Checks x v P) (hf : v = [] → ∀ a, P a → Checks (f a) w Q) :
    Checks (x >>= f) (v ++ w) Q := by
  cases v with
  | nil =>
    obtain ⟨a, rfl, ha⟩ := hx
    exact hf rfl a ha
  | cons e v =>
    obtain rfl : x = .error e := hx
    exact (rfl : Except.error e >>= f = .error e)

theorem mapM {f : α → Except Error β} {v : α → List Error} {g : α → β}
    (h : ∀ a, Checks (f a) (v a) (· = g a)) (as : List α) :
    Checks (as.mapM f) (as.flatMap v) (· = as.map g) := by
  induction as with
  | nil => exact ⟨[], rfl, rfl⟩
  | cons a as ih =>
    rw [List.mapM_cons, List.flatMap_cons, ← List.append_nil (as.flatMap v)]
    refine (h a).bind fun _ b hb => ih.bind fun _ bs hbs => ⟨b :: bs, rfl, ?_⟩
    rw [hb, hbs, List.map_cons]

theorem of_ok {a : α} (hv : v.head? = none) (ha : P a) : Checks (.ok a) v P := by
  rw [Checks, hv]
  exact ⟨a, rfl, ha⟩

theorem of_error {e : Error} (hv : v.head? = some e) : Checks (.error e) v P := by
  rw [Checks, hv]

theorem mono {R : α → Prop} (hx : Checks x v P) (h : ∀ a, P a → R a) : Checks x v R := by
  cases v with
  | nil =>
    obtain ⟨a, hx, ha⟩ := hx
    exact ⟨a, hx, h a ha⟩
  | cons e v => exact hx

theorem exists_ok_iff (hx : Checks x v P) : (∃ a, x = .ok a) ↔ v = [] := by
  cases v with
  | nil =>
    obtain ⟨a, rfl, -⟩ := hx
    exact ⟨fun _ => rfl, fun _ => ⟨a, rfl⟩⟩
  | cons e v =>
    obtain rfl : x = .error e := hx
    simp

end Checks

theorem TokenTable.checks_ofEntries {es : List TokenTable.Entry} {v : List Error}
    (h : TokenTable.firstFlaw? [] es = v.head?) :
    Checks (TokenTable.ofEntries es) v (·.entries = es) := by
  unfold TokenTable.ofEntries
  split
  · next hf => exact .of_error (h.symm.trans hf)
  · next hf => exact .of_ok (h.symm.trans hf) rfl

theorem Draft.checks_build {draft : Draft} {v : List Error} (h : draft.flaw? = v.head?) :
    Checks draft.build v fun d => d.toSetting = draft.toSetting ∧ d.name = draft.name ∧
      d.handlers = draft.handlers ++ draft.standardHandlers ∧ d.hooks = draft.hooks := by
  unfold Draft.build
  split
  · next hf => exact .of_error (h.symm.trans hf)
  · next hf => exact .of_ok (h.symm.trans hf) ⟨rfl, rfl, rfl, rfl⟩

/-! ### Names of opcodes -/

namespace Opcode

def IsName (text : String) : Prop := ∃ op ∈ core ++ extended, op.name = text

instance (text : String) : Decidable (IsName text) := List.decidableBEx _ _

/-- The opcode that is meant by a name. A name of no other opcode means a custom one. -/
def named (text : String) : Opcode := (ofName? text).getD (.custom text)

theorem ofName?_eq_some_iff {text : String} {op : Opcode} :
    ofName? text = some op ↔ op ∈ core ++ extended ∧ op.name = text := by
  constructor
  · intro h
    exact ⟨List.mem_of_find?_eq_some h, by simpa using List.find?_some h⟩
  · rintro ⟨ho, rfl⟩
    exact ofName?_name op ho

theorem ofName?_eq_none_iff {text : String} : ofName? text = none ↔ ¬ IsName text := by
  rw [ofName?, List.find?_eq_none]
  simp only [beq_iff_eq, IsName, not_exists, not_and]

@[simp] theorem name_named (text : String) : (named text).name = text := by
  unfold named
  cases h : ofName? text with
  | none => rfl
  | some op => exact (ofName?_eq_some_iff.1 h).2

theorem named_injective : Function.Injective named := fun a b h => by
  rw [← name_named a, h, name_named]

theorem ofName?_of_isName {text : String} (h : IsName text) :
    ofName? text = some (named text) := by
  cases hn : ofName? text with
  | none => exact absurd h (ofName?_eq_none_iff.1 hn)
  | some op => simp [named, hn]

theorem named_mem_of_isName {text : String} (h : IsName text) : named text ∈ core ++ extended :=
  (ofName?_eq_some_iff.1 (ofName?_of_isName h)).1

end Opcode

open Opcode (IsName named)

namespace Definition

/-! ### Well-formed definitions -/

variable {d : Definition}

def names (d : Definition) : List String := d.ops.map (·.name)

/-- The names in the regions, of each the opening one first. -/
def regionNames (d : Definition) : List String := d.regions.flatMap fun r => [r.opener, r.closer]

structure WellFormed (d : Definition) : Prop where
  ops_ne_nil : d.ops ≠ []
  isName_of_mem : ∀ n ∈ d.names, IsName n
  isName_of_region : ∀ r ∈ d.regions, IsName r.opener ∧ IsName r.closer
  names_nodup : d.names.Nodup
  tokens_nonempty : ∀ e ∈ d.ops, e.tokens ≠ [] ∧ "" ∉ e.tokens
  tapeSize_pos : 1 ≤ d.machine.tapeSize
  cellWidth_bounds : 1 ≤ d.machine.cellWidth ∧ d.machine.cellWidth ≤ 32
  scan_of_regions : d.regions ≠ [] → d.mode = .scan
  regions_known : ∀ r ∈ d.regions, r.opener ∈ d.names ∧ r.closer ∈ d.names

def unknownName (name : String) : List Error := unmet (IsName name) (.unknownOpcodeName name)

/-- What is wrong with the entries of a table, where the names in `before` are taken. -/
def entryViolations : List String → List OpcodeEntry → List Error
  | _, [] => []
  | before, e :: es =>
    unmet (e.name ∉ before) (.duplicateOpcode (named e.name)) ++
      (unmet (e.tokens ≠ []) (.noTokens (named e.name)) ++
      (unmet ("" ∉ e.tokens) (.emptyToken (named e.name)) ++
      entryViolations (e.name :: before) es))

/-- What is wrong with a definition whose names all mean an opcode, beyond its table. -/
def draftViolations (d : Definition) : List Error :=
  unmet (1 ≤ d.machine.tapeSize) (.config .emptyTape) ++
  (unmet (1 ≤ d.machine.cellWidth ∧ d.machine.cellWidth ≤ 32)
    (.config (.cellWidth d.machine.cellWidth)) ++
  (unmet (d.ops ≠ []) (.config (.noOpcodes d.name)) ++
  (unmet (d.regions ≠ [] → d.mode = .scan) (.config .regionsNeedScan) ++
  d.regionNames.flatMap fun n => unmet (n ∈ d.names) (.unknownOpcode (named n)))))

/-- Everything that is wrong with a definition, in the order of the checks. -/
def violations (d : Definition) : List Error :=
  d.names.flatMap unknownName ++ (entryViolations [] d.ops ++
    (d.regionNames.flatMap unknownName ++ d.draftViolations))

theorem forall_mem_regionNames {P : String → Prop} :
    (∀ n ∈ d.regionNames, P n) ↔ ∀ r ∈ d.regions, P r.opener ∧ P r.closer := by
  simp only [regionNames, List.mem_flatMap, List.mem_cons, List.not_mem_nil, or_false,
    forall_exists_index, and_imp]
  constructor
  · exact fun h r hr => ⟨h _ r hr (.inl rfl), h _ r hr (.inr rfl)⟩
  · rintro h n r hr (rfl | rfl)
    · exact (h r hr).1
    · exact (h r hr).2

theorem entryViolations_eq_nil_iff {before : List String} {es : List OpcodeEntry} :
    entryViolations before es = [] ↔
      (∀ n ∈ es.map (·.name), n ∉ before) ∧ (es.map (·.name)).Nodup ∧
        ∀ e ∈ es, e.tokens ≠ [] ∧ "" ∉ e.tokens := by
  induction es generalizing before with
  | nil => simp [entryViolations]
  | cons e es ih =>
    simp only [entryViolations, List.append_eq_nil_iff, unmet_eq_nil_iff, ih, List.map_cons,
      List.forall_mem_cons, List.nodup_cons]
    simp only [List.mem_cons, not_or]
    constructor
    · rintro ⟨hb, ht, he, ho, hn, hw⟩
      exact ⟨⟨hb, fun n h => (ho n h).2⟩, ⟨fun h => (ho _ h).1 rfl, hn⟩, ⟨ht, he⟩, hw⟩
    · rintro ⟨⟨hb, ho⟩, ⟨hd, hn⟩, ⟨ht, he⟩, hw⟩
      exact ⟨hb, ht, he, fun n h => ⟨fun hx => hd (hx ▸ h), ho n h⟩, hn, hw⟩

theorem violations_eq_nil_iff : d.violations = [] ↔ d.WellFormed := by
  simp only [violations, draftViolations, unknownName, List.append_eq_nil_iff,
    entryViolations_eq_nil_iff, unmet_eq_nil_iff, List.flatMap_eq_nil_iff, forall_mem_regionNames]
  constructor
  · rintro ⟨hn, ⟨-, hd, ht⟩, hr, hs, hw, ho, hm, hk⟩
    exact ⟨ho, hn, hr, hd, ht, hs, hw, hm, hk⟩
  · rintro ⟨ho, hn, hr, hd, ht, hs, hw, hm, hk⟩
    exact ⟨hn, ⟨fun _ _ => List.not_mem_nil, hd, ht⟩, hr, hs, hw, ho, hm, hk⟩

instance : Decidable d.WellFormed := decidable_of_iff (d.violations = []) violations_eq_nil_iff

theorem missingHandler_notMem_entryViolations (op : Opcode) (before : List String)
    (es : List OpcodeEntry) : Error.missingHandler op ∉ entryViolations before es := by
  induction es generalizing before with
  | nil => simp [entryViolations]
  | cons e es ih => simp [entryViolations, ih]

theorem missingHandler_notMem_violations (d : Definition) (op : Opcode) :
    Error.missingHandler op ∉ d.violations := by
  simp [violations, draftViolations, unknownName, missingHandler_notMem_entryViolations]

/-! ### The described dialect -/

def entryOf (e : OpcodeEntry) : TokenTable.Entry := ⟨named e.name, e.tokens⟩

def regionOf (r : RegionEntry) : Region := ⟨named r.opener, named r.closer, r.kind⟩

/-- The dialect has what the definition gives, the standard handlers and nothing else. -/
structure Describes (d : Definition) (dialect : Dialect) : Prop where
  name : dialect.name = d.name
  entries : dialect.table.entries = d.ops.map entryOf
  config : dialect.config = d.machine
  separators : dialect.surface.separators = d.separators
  mode : dialect.surface.mode = d.mode
  regions : dialect.surface.regions = d.regions.map regionOf
  standard : ∀ op ∈ dialect.table.opcodes, op ∉ Opcode.core →
    ∃ h, Handler.standard? op = some h ∧ dialect.handler? op = some h
  others : ∀ op, op ∈ Opcode.core ∨ op ∉ dialect.table.opcodes → dialect.handler? op = none
  hooks : dialect.hooks = {}

/-! ### The stages -/

theorem checks_opcode (name : String) :
    Checks (opcode name) (unknownName name) (· = named name) := by
  unfold Checks opcode unknownName
  rw [head?_unmet]
  by_cases h : IsName name
  · rw [if_pos h, Opcode.ofName?_of_isName h]
    exact ⟨_, rfl, rfl⟩
  · rw [if_neg h, Opcode.ofName?_eq_none_iff.2 h]

theorem checks_tableEntry (e : OpcodeEntry) :
    Checks (tableEntry e) (unknownName e.name) (· = entryOf e) := by
  rw [← List.append_nil (unknownName e.name)]
  exact (checks_opcode e.name).bind fun _ op hop => ⟨_, rfl, by rw [hop]; rfl⟩

theorem checks_region (r : RegionEntry) :
    Checks (region r) ([r.opener, r.closer].flatMap unknownName) (· = regionOf r) := by
  refine (checks_opcode r.opener).bind fun _ opener ho => ?_
  refine (checks_opcode r.closer).bind fun _ closer hc => ⟨_, rfl, ?_⟩
  rw [ho, hc]
  rfl

theorem flaw?_entryOf (e : OpcodeEntry) :
    (entryOf e).flaw? = (unmet (e.tokens ≠ []) (.noTokens (named e.name)) ++
      unmet ("" ∉ e.tokens) (.emptyToken (named e.name))).head? := by
  rw [List.head?_append, head?_unmet, head?_unmet, TokenTable.Entry.flaw?]
  by_cases ht : e.tokens = []
  · simp [entryOf, ht]
  · by_cases he : "" ∈ e.tokens <;> simp [entryOf, ht, he]

theorem firstFlaw?_map_entryOf (before : List String) (es : List OpcodeEntry) :
    TokenTable.firstFlaw? (before.map named) (es.map entryOf) =
      (entryViolations before es).head? := by
  induction es generalizing before with
  | nil => rfl
  | cons e es ih =>
    have hb : (entryOf e).op ∈ before.map named ↔ e.name ∈ before :=
      List.mem_map_of_injective Opcode.named_injective
    rw [List.map_cons, TokenTable.firstFlaw?, entryViolations]
    by_cases hd : e.name ∈ before
    · rw [if_pos (hb.2 hd), unmet, if_neg (not_not_intro hd)]
      rfl
    · rw [if_neg (mt hb.1 hd), unmet, if_pos hd, List.nil_append, ← List.append_assoc,
        List.head?_append, ← ih (e.name :: before), flaw?_entryOf]
      rfl

/-! ### The draft -/

def draftOf (d : Definition) (table : TokenTable) : Draft :=
  { name := d.name
    table
    config := d.machine
    surface := { separators := d.separators, mode := d.mode, regions := d.regions.map regionOf } }

section Draft

variable {table : TokenTable}

theorem opcodes_eq (ht : table.entries = d.ops.map entryOf) :
    table.opcodes = d.names.map named := by
  simp [TokenTable.opcodes, ht, names, entryOf]

theorem map_config_flaw? (c : MachineConfig) :
    c.flaw?.map Error.config = (unmet (1 ≤ c.tapeSize) (.config .emptyTape) ++
      unmet (1 ≤ c.cellWidth ∧ c.cellWidth ≤ 32) (.config (.cellWidth c.cellWidth))).head? := by
  have ht : c.tapeSize = 0 ↔ ¬ 1 ≤ c.tapeSize := by omega
  have hw : (c.cellWidth = 0 ∨ 32 < c.cellWidth) ↔ ¬ (1 ≤ c.cellWidth ∧ c.cellWidth ≤ 32) := by
    omega
  rw [List.head?_append, head?_unmet, head?_unmet, MachineConfig.flaw?]
  simp only [ht, hw]
  by_cases h1 : 1 ≤ c.tapeSize <;> by_cases h2 : 1 ≤ c.cellWidth ∧ c.cellWidth ≤ 32 <;>
    simp [h1, h2]

theorem map_unknownRegionOpcode? (ht : table.entries = d.ops.map entryOf) :
    (d.draftOf table).unknownRegionOpcode?.map Error.unknownOpcode =
      (d.regionNames.flatMap fun n => unmet (n ∈ d.names) (.unknownOpcode (named n))).head? := by
  have hr : ((d.regions.map regionOf).flatMap fun r => [r.opener, r.closer]) =
      d.regionNames.map named := by
    simp [regionNames, List.flatMap_map, List.map_flatMap, regionOf]
  rw [head?_flatMap_unmet, Draft.unknownRegionOpcode?]
  show Option.map _ (List.find? (fun op => op ∉ table.opcodes)
    ((d.regions.map regionOf).flatMap fun r => [r.opener, r.closer])) = _
  rw [hr, List.find?_map, Option.map_map, opcodes_eq ht]
  simp only [Function.comp_def, List.mem_map_of_injective Opcode.named_injective]

theorem standard_of_unbound (hn : ∀ n ∈ d.names, IsName n)
    (ht : table.entries = d.ops.map entryOf) {op : Opcode} (ho : op ∈ (d.draftOf table).unbound) :
    (Handler.standard? op).isSome = true := by
  obtain ⟨ho, hc⟩ := List.mem_filter.1 ho
  have ho' : op ∈ d.names.map named := opcodes_eq ht ▸ ho
  obtain ⟨n, hm, rfl⟩ := List.mem_map.1 ho'
  rcases List.mem_append.1 (Opcode.named_mem_of_isName (hn n hm)) with h | h
  · simp [h] at hc
  · exact (Handler.isSome_standard?_iff _).2 h

theorem flaw?_draftOf (hn : ∀ n ∈ d.names, IsName n) (ht : table.entries = d.ops.map entryOf) :
    (d.draftOf table).flaw? = d.draftViolations.head? := by
  have ho : table.opcodes = [] ↔ ¬ d.ops ≠ [] := by simp [opcodes_eq ht, names]
  have hm : d.mode = .delimited ∧ d.regions.map regionOf ≠ [] ↔
      ¬ (d.regions ≠ [] → d.mode = .scan) := by
    cases d.mode <;> simp
  have hs : ((d.draftOf table).unbound.find? fun op => (Handler.standard? op).isNone) = none := by
    rw [List.find?_eq_none]
    intro op hop
    simpa [Option.isSome_iff_ne_none] using standard_of_unbound hn ht hop
  rw [draftViolations, ← List.append_assoc, List.head?_append, ← map_config_flaw?,
    List.head?_append, List.head?_append, head?_unmet, head?_unmet, ← map_unknownRegionOpcode? ht,
    Draft.flaw?, hs, Option.map_none, Option.or_none]
  simp only [draftOf, ho, hm, ite_not]

end Draft

/-! ### The built dialect -/

theorem lookup_filterMap (f : Opcode → Option Handler) (ops : List Opcode) (op : Opcode) :
    (ops.filterMap fun o => (f o).map fun h => (o, h)).lookup op =
      if op ∈ ops then f op else none := by
  induction ops with
  | nil => rfl
  | cons o ops ih =>
    by_cases ho : op = o
    · -- A further occurrence has the same handler, so the first one can decide.
      subst ho
      cases hf : f op with
      | none => simp [hf, ih]
      | some h => simp [hf]
    · have hne : (op == o) = false := by simpa using ho
      cases hf : f o <;> simp [hf, ih, List.lookup_cons, hne, ho]

theorem describes_of_declared {dialect : Dialect} {table : TokenTable}
    (hn : ∀ n ∈ d.names, IsName n) (ht : table.entries = d.ops.map entryOf)
    (hs : dialect.toSetting = (d.draftOf table).toSetting) (hd : dialect.name = d.name)
    (hh : dialect.handlers = (d.draftOf table).standardHandlers) (hk : dialect.hooks = {}) :
    d.Describes dialect := by
  have htable : dialect.table = table := congrArg Setting.table hs
  have hsurface : dialect.surface = (d.draftOf table).surface := congrArg Setting.surface hs
  have hl (op : Opcode) : dialect.handler? op =
      if op ∈ (d.draftOf table).unbound then Handler.standard? op else none := by
    rw [Dialect.handler?, hh]
    exact lookup_filterMap Handler.standard? _ op
  refine
    { name := hd
      entries := htable ▸ ht
      config := congrArg Setting.config hs
      separators := congrArg Surface.separators hsurface
      mode := congrArg Surface.mode hsurface
      regions := congrArg Surface.regions hsurface
      standard := fun op ho hc => ?_
      others := fun op ho => ?_
      hooks := hk }
  · have hu : op ∈ (d.draftOf table).unbound :=
      List.mem_filter.2 ⟨htable ▸ ho, by simp [hc, draftOf]⟩
    obtain ⟨h, hst⟩ := Option.isSome_iff_exists.1 (standard_of_unbound hn ht hu)
    exact ⟨h, hst, by rw [hl, if_pos hu, hst]⟩
  · have hu : op ∉ (d.draftOf table).unbound := fun hu => by
      obtain ⟨hm, hc⟩ := List.mem_filter.1 hu
      have hc' : op ∉ Opcode.core := fun h => by simp [h] at hc
      exact ho.elim hc' fun h => h (htable ▸ hm)
    rw [hl, if_neg hu]

theorem checks_build (d : Definition) : Checks d.build d.violations d.Describes := by
  have hn : d.names.flatMap unknownName = d.ops.flatMap fun e => unknownName e.name := by
    simp [names, List.flatMap_map]
  have hr : d.regionNames.flatMap unknownName =
      d.regions.flatMap fun r => [r.opener, r.closer].flatMap unknownName := by
    simp [regionNames, List.flatMap_assoc]
  rw [violations, hn, hr]
  refine (Checks.mapM checks_tableEntry d.ops).bind fun hnames entries he => ?_
  -- That the names are known is used by the last stage: it finds all standard handlers.
  rw [← hn] at hnames
  subst he
  refine (TokenTable.checks_ofEntries (firstFlaw?_map_entryOf [] d.ops)).bind fun _ table ht => ?_
  refine (Checks.mapM checks_region d.regions).bind fun _ regions hregions => ?_
  subst hregions
  have hnames' : ∀ n ∈ d.names, IsName n := by simpa [unknownName] using hnames
  refine (Draft.checks_build (flaw?_draftOf hnames' ht)).mono fun dialect ⟨hs, hd, hh, hk⟩ => ?_
  exact describes_of_declared hnames' ht hs hd hh hk

/-- Building gives the described dialect exactly where the definition is well formed. Otherwise it
reports the first violation, and never an opcode without a handler. -/
theorem build_describes_or_reports (d : Definition) :
    ((∃ dialect, d.build = .ok dialect) ↔ d.WellFormed) ∧
      match d.build with
      | .ok dialect => d.Describes dialect
      | .error e => d.violations.head? = some e ∧ ∀ op, e ≠ .missingHandler op := by
  have h := d.checks_build
  refine ⟨h.exists_ok_iff.trans violations_eq_nil_iff, ?_⟩
  unfold Checks at h
  cases hv : d.violations.head? with
  | none =>
    rw [hv] at h
    obtain ⟨dialect, hb, hd⟩ := h
    rw [hb]
    exact hd
  | some e =>
    rw [hv] at h
    rw [h]
    refine ⟨rfl, fun op he => ?_⟩
    subst he
    exact missingHandler_notMem_violations d op (List.mem_of_head? hv)

-- Violations of several stages: the first one is reported.
example :
    violations
      { name := "empty"
        machine := { tapeSize := 0 }
        ops := []
        regions := [⟨"buf", "off", .literal⟩] } =
      [.unknownOpcodeName "off", .config .emptyTape, .config (.noOpcodes "empty"),
        .unknownOpcode .buf, .unknownOpcode (.custom "off")] := by
  decide

example :
    WellFormed
      { name := "arrows"
        separators := [" "]
        machine := { tapeSize := 1, cellWidth := 32 }
        ops := [⟨"nxt", ["→", ">"]⟩, ⟨"buf", ["→"]⟩, ⟨"end_buf", [";"]⟩]
        regions := [⟨"buf", "end_buf", .literal⟩] } := by
  decide

end Definition

end TapeDialects
