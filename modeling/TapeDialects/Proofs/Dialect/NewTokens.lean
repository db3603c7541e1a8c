import TapeDialects.Proofs.Program.Compiling
import TapeDialects.Proofs.Run.Engine

/-!
# New tokens

A dialect with one new token for every opcode runs the same programs in the same way: the engine
does not see tokens, as long as no handler writes them out (`sameEngine_of_withTokens`). And a text
of the old dialect, written with the new tokens, is read as the same program again if the new
tokens can be told apart in a text (`unambiguous_of_withTokens`). So converting a text and running
it in the new dialect is the same as running it in the old one (`runSource_convert`).
-/

namespace TapeDialects

namespace TokenTable

variable {t u : TokenTable} {aliases : List (List String)} {tokens : List String}

/-! ### Replaced tokens -/

theorem listings_withAliases_singletons (es : List Entry) (tokens : List String) :
    listings (withAliases es (tokens.map ([·]))) = tokens.zip (es.map (·.op)) := by
  induction es generalizing tokens with
  | nil => simp [withAliases, listings]
  | cons e es ih =>
    cases tokens with
    | nil => simp [withAliases, listings]
    | cons token tokens =>
      have := ih tokens
      simp only [withAliases, listings, List.map_cons, List.zipWith_cons_cons, List.flatMap_cons,
        List.map_nil, List.zip_cons_cons] at this ⊢
      rw [this]
      rfl

theorem listings_replaceTokens (h : t.replaceTokens tokens = .ok u) :
    tokens.length = t.opcodes.length ∧ listings u.entries = tokens.zip t.opcodes := by
  obtain ⟨hl, he⟩ := entries_replaceAliases h
  refine ⟨by simpa [opcodes] using hl, ?_⟩
  rw [he, listings_withAliases_singletons]
  rfl

theorem allTokens_replaceTokens (h : t.replaceTokens tokens = .ok u) : u.allTokens = tokens := by
  obtain ⟨hl, hu⟩ := listings_replaceTokens h
  have ha : u.allTokens = (listings u.entries).map Prod.fst := by
    simp [allTokens, listings, List.map_flatMap, Function.comp_def]
  rw [ha, hu, List.map_fst_zip (Nat.le_of_eq hl)]

end TokenTable

open TokenTable

namespace Dialect

variable {d d' : Dialect} {name : String} {tokens : List String}

/-! ### Dialects with new tokens -/

theorem withTokens_eq_ok (h : d.withTokens name tokens = .ok d') :
    d.table.replaceTokens tokens = .ok d'.table ∧ d'.config = d.config ∧
      d'.surface = d.surface ∧ d'.handlers = d.handlers ∧ d'.hooks = d.hooks := by
  unfold withTokens at h
  split at h
  · contradiction
  · next table ht =>
    cases h
    exact ⟨ht, rfl, rfl, rfl, rfl⟩

theorem sameEngine_of_withTokens (hu : d.Uses Handler.ignoresTokens)
    (h : d.withTokens name tokens = .ok d') : d.SameEngine d' := by
  obtain ⟨ht, hc, -, hh, hk⟩ := withTokens_eq_ok h
  have hd : d.toSetting.SameCode d'.toSetting :=
    ⟨by rw [hc], by rw [hc], (opcodes_replaceAliases ht).symm⟩
  exact sameEngine_of_uses hu
    (fun _ hg => Handler.run_congr (Handler.isLibrary_of_ignoresTokens hg) hd (.inl hg))
    (by rw [hc]) hh hk

theorem unambiguous_of_withTokens (hm : d.surface.mode = .scan) (hr : d.surface.regions = [])
    (h : d.withTokens name tokens = .ok d') (hn : tokens.Nodup)
    (hp : ∀ u ∈ tokens, ∀ v ∈ tokens, u.toList <+: v.toList → u = v)
    (hs : ∀ c ∈ d.surface.separator.toList, ∀ u ∈ tokens, u.toList.head? ≠ some c) :
    d'.toSetting.Unambiguous := by
  obtain ⟨ht, -, hsurface, -⟩ := withTokens_eq_ok h
  have hall := allTokens_replaceTokens ht
  have hd : d'.toSetting.Distinct :=
    { scans := hsurface ▸ hm
      nodup := hall ▸ hn
      unextended := hall ▸ hp
      foreign := by rwa [hsurface, hall] }
  exact hd.unambiguous (by simp [hsurface, hr])

theorem compatible_of_withTokens (hr : d.surface.regions = [])
    (h : d.withTokens name tokens = .ok d') : d.toSetting.Compatible d'.toSetting := by
  obtain ⟨-, -, hs, -⟩ := withTokens_eq_ok h
  intro op _ _
  simp [Setting.LiteralsFit, Surface.regionOpenedBy, hs, hr]

/-- A text of a dialect without regions can be written with new tokens, and running it with them
comes to the same: the same answer, with the same location if it is a fault, the same machine and
the same stream. -/
theorem runSource_convert (hm : d.surface.mode = .scan) (hr : d.surface.regions = [])
    (hu : d.Uses Handler.ignoresTokens) (h : d.withTokens name tokens = .ok d')
    (hn : tokens.Nodup) (hp : ∀ u ∈ tokens, ∀ v ∈ tokens, u.toList <+: v.toList → u = v)
    (hs : ∀ c ∈ d.surface.separator.toList, ∀ u ∈ tokens, u.toList.head? ≠ some c)
    (source : String) :
    d'.newMachine = d.newMachine ∧
      ∃ text, d.convert d'.toSetting source = .ok text ∧
        ∀ fuel m stream, d'.runSource fuel text m stream = d.runSource fuel source m stream := by
  obtain ⟨ht, hconfig, -⟩ := withTokens_eq_ok h
  obtain ⟨p, hc⟩ := Setting.compile_of_no_regions hm hr source
  have hconv := Setting.convert_of_compile hm (unambiguous_of_withTokens hm hr h hn hp hs)
    (compatible_of_withTokens hr h) hc
  have hfind : (p.toList.find? fun i => !d'.table.contains i.op) = none := by
    refine List.find?_eq_none.2 fun i hi => ?_
    have ho := (Setting.read_of_compile hm hc (Array.mem_toList_iff.1 hi)).1
    rw [← opcodes_replaceAliases ht, ← contains_iff] at ho
    simp [ho]
  rw [hfind] at hconv
  obtain ⟨text, htext, hc'⟩ := hconv
  refine ⟨by rw [newMachine, newMachine, hconfig], text, htext, fun fuel m stream => ?_⟩
  rw [runSource, runSource, hc, hc']
  dsimp only
  rw [run, run, load, load, hconfig]
  exact ((sameEngine_of_withTokens hu h).runLoaded_eq (by rw [hconfig]) fuel _).symm

/-- The self-modifying dialect with the `put` of the core. -/
def plainRewriter : Dialect :=
  Draft.declare
    { name := "rewriter"
      table := Catalog.utU.table
      config := { Catalog.utU.config with tapeSize := 4 }
      surface := Catalog.utU.surface
      hooks := Catalog.utU.hooks }
    (by decide)

/-- Positions in the table are what a program that rewrites itself computes with: here the first
instruction becomes the one that follows it in the table. -/
theorem runSource_convert_plainRewriter :
    let letters := ["a", "b", "c", "d", "e", "f", "g", "h"]
    let source := "うっうー ハイ、ターッチ"
    ∃ d' s, plainRewriter.withTokens "letters" letters = .ok d' ∧
      plainRewriter.convert d'.toSetting source = .ok "b f" ∧
      plainRewriter.runSource 8 source plainRewriter.newMachine {} = (some (.ok 2), s) ∧
      d'.runSource 8 "b f" d'.newMachine {} = (some (.ok 2), s) ∧
      s.machine.program = .ofOpcodes [.dec, .put] ∧ s.stream.sink.written = #[2] := by
  intro letters source
  let p := Program.ofOpcodes [.inc, .put]
  have hcompile : plainRewriter.compile source = .ok p :=
    Setting.compile_eq_of_render (by decide +kernel) (Setting.faithful_ofOpcodes (by decide))
      (by decide +kernel)
  have hrender : (plainRewriter.withTokens "letters" letters >>= fun d' => d'.render p) =
      .ok "b f" := by
    decide +kernel
  have hs : plainRewriter.surface.separator.toList = [' '] := by decide
  cases hd : plainRewriter.withTokens "letters" letters with
  | error e =>
    rw [hd] at hrender
    contradiction
  | ok d' =>
    rw [hd] at hrender
    have hconvert : plainRewriter.convert d'.toSetting source = .ok "b f" := by
      rw [Setting.convert, hcompile]
      exact hrender
    obtain ⟨hm, text, ht, hr⟩ := runSource_convert rfl rfl (uses_of_all rfl rfl rfl rfl) hd
      (by decide) (by decide +kernel) (by simp [hs, letters]) source
    rw [hconvert] at ht
    cases ht
    cases hrun : plainRewriter.runSource 8 source plainRewriter.newMachine {} with
    | mk r s =>
      have hresult : plainRewriter.run 8 p plainRewriter.newMachine {} = (r, s) := by
        rw [← hrun, runSource, hcompile]
      have hanswer : (plainRewriter.run 8 p plainRewriter.newMachine {}).1 = some (.ok 2) := by
        decide +kernel
      have hprogram : (plainRewriter.run 8 p plainRewriter.newMachine {}).2.machine.program =
          .ofOpcodes [.dec, .put] := by
        decide +kernel
      have hwritten : (plainRewriter.run 8 p plainRewriter.newMachine {}).2.stream.sink.written =
          #[2] := by
        decide +kernel
      rw [hresult] at hanswer hprogram hwritten
      obtain rfl : r = some (.ok 2) := hanswer
      exact ⟨d', s, rfl, hconvert, rfl, hm ▸ (hr 8 _ {}).trans hrun, hprogram, hwritten⟩

end Dialect

end TapeDialects
