import TapeDialects.Dialect.Handler

/-!
# Dialects

A dialect is a language of the tape machine: a setting with a name, handlers for
some opcodes and hooks. It is built from a draft, which is checked first: a
dialect always has a machine that can run, at least one opcode, regions whose
opcodes it knows, and an effect for every opcode of its table. These facts are
fields of the type, and every way to vary a dialect keeps them.
-/

namespace TapeDialects

/-- The handlers bound to opcodes; the first one of an opcode counts. -/
abbrev Bindings := List (Opcode × Handler)

/-- The parts of a dialect before they are checked. -/
structure Draft extends Setting where
  name : String
  handlers : Bindings := []
  hooks : Hooks := {}
  deriving Inhabited

/-- A language of the tape machine. -/
structure Dialect extends Setting where
  name : String
  handlers : Bindings
  hooks : Hooks
  config_valid : config.Valid
  opcodes_ne_nil : table.opcodes ≠ []
  regions_of_delimited : surface.mode = .delimited → surface.regions = []
  regions_known : ∀ r ∈ surface.regions, r.opener ∈ table.opcodes ∧ r.closer ∈ table.opcodes
  handled : ∀ op ∈ table.opcodes, op ∈ Opcode.core ∨ (handlers.lookup op).isSome = true

namespace Draft

def unknownRegionOpcode? (d : Draft) : Option Opcode :=
  (d.surface.regions.flatMap fun r => [r.opener, r.closer]).find? fun op => op ∉ d.table.opcodes

def unbound (d : Draft) : List Opcode :=
  d.table.opcodes.filter fun op => op ∉ Opcode.core ∧ (d.handlers.lookup op).isNone

/-- The first thing that keeps the draft from being a dialect. -/
def flaw? (d : Draft) : Option Error :=
  (d.config.flaw?.map .config).or <|
  (if d.table.opcodes = [] then some (.config (.noOpcodes d.name)) else none).or <|
  (if d.surface.mode = .delimited ∧ d.surface.regions ≠ [] then
    some (.config .regionsNeedScan) else none).or <|
  (d.unknownRegionOpcode?.map .unknownOpcode).or <|
  (d.unbound.find? fun op => (Handler.standard? op).isNone).map .missingHandler

/-- A draft can be completed to a dialect. -/
structure WellFormed (d : Draft) : Prop where
  config_valid : d.config.Valid
  opcodes_ne_nil : d.table.opcodes ≠ []
  regions_of_delimited : d.surface.mode = .delimited → d.surface.regions = []
  regions_known :
    ∀ r ∈ d.surface.regions, r.opener ∈ d.table.opcodes ∧ r.closer ∈ d.table.opcodes
  standard_of_unbound : ∀ op ∈ d.unbound, (Handler.standard? op).isSome = true

theorem flaw?_eq_none_iff (d : Draft) : d.flaw? = none ↔ d.WellFormed := by
  have hr : d.unknownRegionOpcode? = none ↔
      ∀ r ∈ d.surface.regions, r.opener ∈ d.table.opcodes ∧ r.closer ∈ d.table.opcodes := by
    simp only [unknownRegionOpcode?, List.find?_eq_none, List.mem_flatMap, List.mem_cons,
      List.not_mem_nil, or_false, decide_eq_true_eq, Decidable.not_not, forall_exists_index,
      and_imp]
    constructor
    · exact fun h r hr => ⟨h _ r hr (.inl rfl), h _ r hr (.inr rfl)⟩
    · rintro h op r hr (rfl | rfl)
      · exact (h r hr).1
      · exact (h r hr).2
  have hu : (d.unbound.find? fun op => (Handler.standard? op).isNone) = none ↔
      ∀ op ∈ d.unbound, (Handler.standard? op).isSome = true := by
    simp [List.find?_eq_none, Option.isSome_iff_ne_none]
  simp only [flaw?, Option.or_eq_none_iff, Option.map_eq_none_iff, MachineConfig.flaw?_eq_none_iff,
    hr, hu, ite_eq_right_iff, reduceCtorEq, imp_false, not_and, ne_eq, Decidable.not_not]
  exact ⟨fun ⟨h1, h2, h3, h4, h5⟩ => ⟨h1, h2, h3, h4, h5⟩,
    fun ⟨h1, h2, h3, h4, h5⟩ => ⟨h1, h2, h3, h4, h5⟩⟩

def standardHandlers (d : Draft) : Bindings :=
  d.unbound.filterMap fun op => (Handler.standard? op).map fun h => (op, h)

theorem isSome_lookup_standardHandlers {d : Draft} {op : Opcode} (ho : op ∈ d.unbound)
    (hs : (Handler.standard? op).isSome = true) : (d.standardHandlers.lookup op).isSome = true := by
  obtain ⟨h, hh⟩ := Option.isSome_iff_exists.1 hs
  have hm : (op, h) ∈ d.standardHandlers :=
    List.mem_filterMap.2 ⟨op, ho, by simp [hh]⟩
  rw [List.lookup_isSome_iff]
  exact ⟨(op, h), hm, by simp⟩

def complete (d : Draft) (w : d.WellFormed) : Dialect :=
  { toSetting := d.toSetting
    name := d.name
    handlers := d.handlers ++ d.standardHandlers
    hooks := d.hooks
    config_valid := w.config_valid
    opcodes_ne_nil := w.opcodes_ne_nil
    regions_of_delimited := w.regions_of_delimited
    regions_known := w.regions_known
    handled := by
      intro op ho
      by_cases hc : op ∈ Opcode.core
      · exact .inl hc
      · refine .inr ?_
        rw [List.lookup_append, Option.isSome_or, Bool.or_eq_true]
        cases hl : d.handlers.lookup op with
        | some h => exact .inl rfl
        | none =>
          have hu : op ∈ d.unbound := by
            simp [unbound, ho, hc, hl]
          exact .inr (isSome_lookup_standardHandlers hu (w.standard_of_unbound op hu)) }

/-- The dialect of a draft that is known to have no flaw. -/
def declare (d : Draft) (h : d.flaw? = none) : Dialect := d.complete (d.flaw?_eq_none_iff.1 h)

/-- The dialect that a draft describes, or the first thing wrong with it. -/
def build (d : Draft) : Except Error Dialect :=
  match h : d.flaw? with
  | some flaw => .error flaw
  | none => .ok (d.declare h)

end Draft

namespace Dialect

def handler? (d : Dialect) (op : Opcode) : Option Handler := d.handlers.lookup op

/-- The dialect on another machine. -/
def withConfig (d : Dialect) (c : MachineConfig) : Except Error Dialect :=
  match h : c.flaw? with
  | some flaw => .error (.config flaw)
  | none => .ok { d with config := c, config_valid := c.flaw?_eq_none_iff.1 h }

/-- The dialect with another name and one new token for every opcode, in order. -/
def withTokens (d : Dialect) (name : String) (tokens : List String) : Except Error Dialect :=
  match h : d.table.replaceTokens tokens with
  | .error e => .error e
  | .ok table =>
    have same : table.opcodes = d.table.opcodes := TokenTable.opcodes_replaceAliases h
    .ok
      { d with
        name := name
        table := table
        opcodes_ne_nil := same ▸ d.opcodes_ne_nil
        regions_known := same ▸ d.regions_known
        handled := same ▸ d.handled }

end Dialect

end TapeDialects
