import TapeDialects.Proofs.Catalog.Conversion
import TapeDialects.Proofs.Run.Draining
import TapeDialects.Proofs.Run.History
import TapeDialects.Proofs.Run.Limited
import TapeDialects.Proofs.Run.Structured
import TapeDialects.Proofs.Stream.Echo
import TapeDialects.Proofs.Tape.Texts

/-!
# Printed literals

A source that puts a literal on the tape, goes back to its first cell and writes as many cells as the
literal has characters writes the literal, whatever it consists of: tokens in it are no instructions,
and every character fits a cell of 32 bits. Only the token that closes the literal cannot be in it.
-/

namespace TapeDialects

open Act

namespace Catalog

variable {text : String}

/-! ### The source and its program -/

/-- The token of `buf`, the text and its closing token, then for each character a token of `prv` and,
behind all these, one of `put`. -/
def printSource (text : String) : String :=
  "ー" ++ text ++ "てー" ++ String.join (List.replicate text.length "てっててー") ++
    String.join (List.replicate text.length "てってっー")

def printProgram (text : String) : Program :=
  (⟨.buf, some text⟩ :: (List.replicate text.length { op := .prv } ++
    List.replicate text.length { op := .put })).toArray

/-- A closing token that began in the text would end in it, since its two characters differ. -/
theorem endsOnly_endBuf (h : ¬ "てー".toList <:+: text.toList) :
    tettette.table.EndsOnly .endBuf text := by
  intro e he ho u hu k hk
  have haliases : e.aliases = ["てー"] := by
    have hentry := TokenTable.aliases?_entry he
    rw [ho] at hentry
    exact Option.some_inj.1 (hentry.symm.trans (by decide))
  obtain rfl : u = "てー" := by simpa [haliases] using hu
  have hcanonical : e.canonical = "てー" := by simp [TokenTable.Entry.canonical, haliases]
  rw [hcanonical, List.drop_append_of_le_length (Nat.le_of_lt hk)]
  generalize hback : text.toList.drop k = back
  have hsuffix : back <:+ text.toList := hback ▸ List.drop_suffix k _
  have hne : back ≠ [] := by
    rw [← hback]
    simpa using hk
  have hshown : "てー".toList = ['て', 'ー'] := by decide
  rw [hshown] at h ⊢
  constructor
  · intro hp
    match back, hne with
    | [c], _ => simp at hp
    | c :: c' :: back, _ =>
      obtain ⟨rfl, rfl⟩ : 'て' = c ∧ 'ー' = c' := by simpa using hp
      exact h ((List.prefix_append ['て', 'ー'] back).isInfix.trans hsuffix.isInfix)
  · intro hp
    have hpos := List.length_pos_iff.2 hne
    have hle := hp.length_le
    simp only [List.length_append, List.length_cons, List.length_nil] at hle
    omega

theorem faithful_printProgram (h : ¬ "てー".toList <:+: text.toList) :
    ∀ i ∈ printProgram text, tettette.Faithful i := by
  intro i hi
  have hi' : i = ⟨.buf, some text⟩ ∨ i = { op := .prv } ∨ i = { op := .put } := by
    simp [printProgram] at hi
    tauto
  rcases hi' with rfl | rfl | rfl
  · have hbuf : Opcode.buf ∈ tettette.table.opcodes := by decide
    exact ⟨hbuf, rfl, text, rfl, endsOnly_endBuf h⟩
  · exact ⟨by decide, rfl⟩
  · exact ⟨by decide, rfl⟩

theorem compile_printSource (h : ¬ "てー".toList <:+: text.toList) :
    tettette.compile (printSource text) = .ok (printProgram text) := by
  have hu := unambiguous tettette (mem_of_dialect (show dialect "tettette" = .ok tettette from rfl))
  have hi := faithful_printProgram h
  obtain ⟨source, _, hr, _, _, hc⟩ := Setting.compile_of_render hu hi
  rw [Setting.render_eq_of_known hu.closers fun i hm => (hi i hm).1] at hr
  cases hr
  have hsource : tettette.surface.separator.intercalate
      ((printProgram text).toList.map (tettette.table.writtenText tettette.surface)) =
        printSource text := by
    have hbuf : tettette.table.writtenText tettette.surface ⟨.buf, some text⟩ =
        "ー" ++ text ++ "てー" := by
      have hregion : tettette.surface.regionOpenedBy .buf = some ⟨.buf, .endBuf, .literal⟩ := rfl
      exact TokenTable.writtenText_literal (i := ⟨.buf, some text⟩) hregion rfl rfl
    have hprv : tettette.table.writtenText tettette.surface { op := .prv } = "てっててー" := by
      decide
    have hput : tettette.table.writtenText tettette.surface { op := .put } = "てってっー" := by
      decide
    have hseparator : tettette.surface.separator = "" := rfl
    apply String.toList_inj.1
    rw [hseparator, printProgram, List.map_cons, toList_intercalate_cons, hbuf]
    simp [joined, printSource, hprv, hput, String.toList_join]
  rwa [hsource] at hc

/-! ### The instructions -/

theorem fit_char (c : Char) : (Tape.ofConfig tettette.config).fit c.toNat = .ok (c.toNat : Int) := by
  have hlt : c.toNat < 2 ^ 32 := c.val.toNat_lt
  have hmax : tettette.config.cellMax = 4294967295 := by decide
  refine Tape.fit_of_mem ⟨Int.natCast_nonneg _, ?_⟩
  show _ ≤ tettette.config.cellMax
  omega

/-- The tape with the literal, and the pointer at index `i`. -/
def literalTape (text : String) (i : Nat) : Tape := .withText tettette.config text.toList i

/-- A machine on the instruction that writes, when it has written `j` characters of the literal. -/
def afterPut (text : String) (stream : Stream) (j : Nat) : Session :=
  (Session.mk ⟨literalTape text 0, #[{ op := .put }], 0, 0⟩ stream).printed .char
    (Tape.codes (text.toList.take j)) j

variable {stream : Stream}

section Instructions

variable (h : text.length < 65536)
include h

theorem size_literalTape (i : Nat) : (literalTape text i).cells.size = 65536 :=
  Tape.size_withText (c := tettette.config) (by rw [String.length_toList]; exact Nat.le_of_lt h)

theorem effectAlone_buf :
    tettette.effectAlone ⟨.buf, some text⟩ ⟨.ofConfig tettette.config, stream⟩ =
      (.ok (), ⟨literalTape text text.length, stream⟩) := by
  have hstore := Tape.storeChars_ofConfig (c := tettette.config) (fun c _ => fit_char c)
    (show text.toList.length < _ from String.length_toList ▸ h)
  have hbound := Dialect.effectAlone_bound (d := tettette) (i := ⟨.buf, some text⟩) (h := .buf) rfl
  have hliteral (t : Tape) : Machine.storeLiteral ⟨t, #[⟨.buf, some text⟩], 0, 0⟩ =
      onTape (Tape.storeChars text.toList) ⟨t, #[⟨.buf, some text⟩], 0, 0⟩ := rfl
  rw [hbound, Handler.run, onMachine_apply, Bench.place, hliteral, onTape_apply, hstore,
    String.length_toList]
  rfl

theorem effectAlone_prv {j : Nat} (hj : j < text.length) :
    tettette.effectAlone { op := .prv } ⟨literalTape text (j + 1), stream⟩ =
      (.ok (), ⟨literalTape text j, stream⟩) := by
  have hsize := size_literalTape h (j + 1)
  have hptr : (literalTape text (j + 1)).ptr = j + 1 := rfl
  rw [Dialect.effectAlone_ofTape (d := tettette) (i := { op := .prv }) (x := Tape.shift (-1)) rfl rfl,
    Tape.shift_prev hptr (by omega)]
  rfl

theorem effectAlone_put (hk : stream.sink.capacity = none) {j : Nat} (hj : j < text.length) :
    tettette.effectAlone { op := .put } (afterPut text stream j).bench =
      (.ok (), (afterPut text stream (j + 1)).bench) := by
  have hlt : j < text.toList.length := String.length_toList ▸ hj
  have hchar : text.toList[j]? = some text.toList[j] := List.getElem?_eq_getElem hlt
  have hsize : (literalTape text 0).cells.size = 65536 := size_literalTape h 0
  have hnext : j + 1 < (literalTape text 0).cells.size := by omega
  have hput : Session.putAdvance .char (afterPut text stream j) =
      (.ok (), afterPut text stream (j + 1)) := by
    rw [afterPut, afterPut, Tape.codes_take_succ hchar]
    exact Session.putAdvance_printed hk (Tape.get?_withText_text hchar) hnext
  have hbound :=
    Dialect.effectAlone_bound (d := tettette) (i := { op := .put }) (h := .putAdvance) rfl
  have hplace : (afterPut text stream j).bench.place #[{ op := .put }] 0 0 =
      afterPut text stream j := rfl
  have houtput : tettette.config.output = .char := rfl
  rw [hbound, Handler.run, hplace, houtput, hput]

end Instructions

/-! ### The run -/

theorem size_printProgram (text : String) :
    (printProgram text).size = 1 + text.length + text.length := by
  simp [printProgram]
  omega

/-- The session behind the last instruction, which is one for the literal and two for each of its
characters away from the first. -/
def afterPrint (text : String) (stream : Stream) : Session :=
  (afterPut text stream text.length).bench.place (printProgram text)
    (1 + text.length + text.length) (1 + text.length + text.length)

theorem finish_of_flushed {s : Session} (hf : s.stream.sink.flushFailure = none) :
    tettette.finish s = (.ok (), s) := by
  have hflush : onStream Stream.flush s = (.ok (), s) := by
    simp [onStream_apply, Stream.flush, Stream.onSink, Sink.flush, hf]
  rw [Dialect.finish, bind_apply]
  exact locatedOutside_ok hflush

theorem afterPut_zero (text : String) (stream : Stream) :
    (afterPut text stream 0).bench = ⟨literalTape text 0, stream⟩ := by
  have hnil := Session.printed_nil ⟨⟨literalTape text 0, #[{ op := .put }], 0, 0⟩, stream⟩ .char
  exact congrArg Session.bench hnil

theorem steps_printProgram (h : text.length < 65536) (hk : stream.sink.capacity = none) :
    tettette.steps (1 + text.length + text.length)
      ⟨⟨.ofConfig tettette.config, printProgram text, 0, 0⟩, stream⟩ =
        (none, afterPrint text stream) := by
  have hd := Dialect.structured_tettette
  have hp : (printProgram text).Holds 0 (⟨.buf, some text⟩ ::
      (List.replicate text.length { op := .prv } ++ List.replicate text.length { op := .put })) :=
    Program.holds_toArray _
  have hput : (printProgram text).Holds (1 + text.length)
      (List.replicate text.length { op := .put }) := by
    simpa using hp.tail.right
  have hbuf : tettette.steps 1 (Bench.place ⟨.ofConfig tettette.config, stream⟩
      (printProgram text) 0 0) =
        (none, Bench.place ⟨literalTape text text.length, stream⟩ (printProgram text) 1 1) := by
    rw [Dialect.steps, Dialect.step_plain hd rfl hp.head (effectAlone_buf h)]
    rfl
  have hback := Dialect.steps_repeated hd rfl hp.tail.left
    (b := fun j => ⟨literalTape text (text.length - j), stream⟩) (fun j hj => by
      have hnext : text.length - j = text.length - (j + 1) + 1 := by omega
      rw [hnext]
      exact effectAlone_prv h (by omega)) 1
  have hwrite := Dialect.steps_repeated hd rfl hput
    (b := fun j => (afterPut text stream j).bench) (fun j hj => effectAlone_put h hk hj)
    (1 + text.length)
  rw [Nat.sub_zero, Nat.sub_self] at hback
  rw [afterPut_zero] at hwrite
  rw [Nat.add_assoc]
  refine (Dialect.steps_add hbuf _).trans ?_
  rw [Dialect.steps_add hback, hwrite, afterPrint]

theorem data_toUTF8 (text : String) :
    text.toUTF8.data = (text.toList.flatMap String.utf8EncodeChar).toArray := by
  rw [String.toUTF8, ← String.utf8Encode_toList, List.utf8Encode, List.data_toByteArray]

/-- Whatever the literal is, if only it has no closing token in it, the source writes it and leaves
its code points on the tape, with the pointer behind them. -/
theorem runSource_printSource (h : text.length ≤ 65535) (ht : ¬ "てー".toList <:+: text.toList)
    {m : Machine} (hm : tettette.Owns m) (hk : stream.sink.capacity = none)
    (hf : stream.sink.flushFailure = none) {fuel : Nat} (hn : 1 + text.length + text.length < fuel) :
    ∃ s, tettette.runSource fuel (printSource text) m stream =
        (some (.ok (1 + text.length + text.length)), s) ∧
      s.stream = { stream with
        sink := { stream.sink with written := stream.sink.written ++ text.toUTF8.data } } ∧
      s.machine.tape.ptr = text.length ∧
      ∀ i c, text.toList[i]? = some c → s.machine.tape.get? i = some (c.toNat : Int) := by
  have hl : tettette.Uses Handler.isLibrary := Dialect.uses_of_all (by decide) rfl rfl rfl
  have hload := Dialect.load_of_owns hl hm (printProgram text)
  have hsteps := steps_printProgram (Nat.lt_succ_of_le h) hk
  have hcomes : tettette.Comes ⟨⟨.ofConfig tettette.config, printProgram text, 0, 0⟩, stream⟩
      (1 + text.length + text.length) (afterPrint text stream) := ⟨_, rfl, hsteps⟩
  have hend : (afterPrint text stream).machine.current? = none :=
    Array.getElem?_eq_none (Nat.le_of_eq (size_printProgram text))
  have hrun := Dialect.runLoaded_of_end hcomes hend hn
  refine ⟨afterPrint text stream, ?_, ?_, rfl, fun i c hi => Tape.get?_withText_text hi⟩
  · rw [Dialect.runSource, compile_printSource ht]
    dsimp only
    rw [Dialect.run, hload, hrun, Dialect.conclude, finish_of_flushed hf]
    rfl
  · rw [data_toUTF8, ← Stream.flatMap_valueBytes_char]
    have htake : text.toList.take text.length = text.toList := by
      rw [← String.length_toList, List.take_length]
    have hput : afterPut text stream text.length =
        (Session.mk ⟨literalTape text 0, #[{ op := .put }], 0, 0⟩ stream).printed .char
          (Tape.codes text.toList) text.length := by
      rw [afterPut, htake]
    exact congrArg Session.stream hput

/-- The opening token and both halves of the closing one are characters like any other. -/
theorem runSource_printSource_tokens :
    let text := "ー\x7bて"
    ¬ "てー".toList <:+: text.toList ∧
      printSource text = "ーー\x7bててーてっててーてっててーてっててーてってっーてってっーてってっー" ∧
      ∃ s, tettette.runSource 8 (printSource text) tettette.newMachine {} = (some (.ok 7), s) ∧
        s.stream.sink.written = #[0xe3, 0x83, 0xbc, 0x7b, 0xe3, 0x81, 0xa6] ∧
        s.machine.tape.ptr = 3 ∧ s.machine.tape.get? 1 = some 0x7b := by
  intro text
  have ht : ¬ "てー".toList <:+: text.toList := by decide
  have hlength : text.length = 3 := by decide
  have hfuel : 1 + text.length + text.length < 8 := by omega
  have hk : ({} : Stream).sink.capacity = none := rfl
  obtain ⟨s, hrun, hstream, hptr, hcells⟩ :=
    runSource_printSource (by omega) ht .new hk rfl hfuel
  rw [hlength] at hrun hptr
  have hwritten : text.toUTF8.data = #[0xe3, 0x83, 0xbc, 0x7b, 0xe3, 0x81, 0xa6] := by decide
  refine ⟨ht, by decide, s, hrun, ?_, hptr, hcells 1 '\x7b' (by decide)⟩
  rw [hstream, hwritten]
  rfl

end Catalog

end TapeDialects
