import TapeDialects.Dialect.Basic

/-!
# The catalog

The dialects that come with the library. Most of them are the core language in
other tokens; some change the machine, add opcodes or run hooks. Their tables and
drafts are checked here, so none of them can be refused later.
-/

namespace TapeDialects.Catalog

open TokenTable (Entry coreEntries)

def coreTable (tokens : List String)
    (h : TokenTable.firstFlaw? [] (coreEntries (tokens.map ([·]))) = none) : TokenTable :=
  TokenTable.declare (coreEntries (tokens.map ([·]))) h

def brainfuck : Dialect :=
  Draft.declare
    { name := "brainfuck"
      table := coreTable
        [">", "<", "+", "-", ".", ",", "[", "]"]
        (by decide) }
    (by decide)

def ook : Dialect :=
  Draft.declare
    { name := "ook"
      table := coreTable
        ["Ook. Ook?", "Ook? Ook.", "Ook. Ook.", "Ook! Ook!", "Ook. Ook!", "Ook! Ook.",
         "Ook! Ook?", "Ook? Ook!"]
        (by decide)
      surface := { separators := [" "] } }
    (by decide)

/-! ### Dialects with a greeting -/

/-- The bitwise opcodes that the dialects with a greeting add to the core. -/
def bitwiseEntries (tokens : List String) : List Entry :=
  List.zipWith (fun op token => ⟨op, [token]⟩) [.or, .and, .not, .xor] tokens

/-- The classical tokens with bitwise opcodes; a greeting is on the tape, and rests of it are
written at the end. -/
def braincrash : Dialect :=
  Draft.declare
    { name := "braincrash"
      table := TokenTable.declare
        (coreEntries [[">"], ["<"], ["+"], ["-"], ["."], [","], ["["], ["]"]]
          ++ bitwiseEntries ["|", "&", "~", "^"])
        (by decide)
      hooks := { preRun := some .greet, postRun := some .drain } }
    (by decide)

/-- All opcodes that work on cells, in hesitant murmurs, with the same greeting. -/
def commdis : Dialect :=
  Draft.declare
    { name := "commdis"
      table := TokenTable.declare
        [⟨.nxt, ["ｱｱ…"]⟩, ⟨.prv, ["ｱｱ､"]⟩, ⟨.inc, ["ｱ…"]⟩, ⟨.dec, ["ｱ､"]⟩, ⟨.put, ["ｴｯﾄ…"]⟩,
         ⟨.get, ["ｴｯﾄ､"]⟩, ⟨.opn, ["ｻｾﾝ…"]⟩, ⟨.cls, ["ｯｽ…"]⟩, ⟨.or, ["ｱｯ…"]⟩, ⟨.and, ["ｱｯ､"]⟩,
         ⟨.not, ["ｱﾉ…"]⟩, ⟨.xor, ["ｱﾉ､"]⟩, ⟨.shl, ["ｱｰ…"]⟩, ⟨.shr, ["ｱｰ､"]⟩, ⟨.njm, ["ｴ…"]⟩,
         ⟨.pjm, ["ｴ､"]⟩, ⟨.zro, ["ｴｯ…"]⟩, ⟨.hom, ["ｴｯ?"]⟩]
        (by decide)
      config := { tapeSize := 32767 }
      hooks := { preRun := some .greet, postRun := some .drain } }
    (by decide)

/-! ### The self-modifying dialect -/

/-- Cells of three bits are the opcodes of the program, which changes itself as it runs. -/
def utU : Dialect :=
  Draft.declare
    { name := "ut_u"
      table := TokenTable.declare
        [⟨.nop, ["あうー"]⟩, ⟨.inc, ["うっうー"]⟩, ⟨.dec, ["ううー"]⟩, ⟨.nxt, ["イエイ"]⟩,
         ⟨.prv, ["おとく"]⟩, ⟨.put, ["ハイ、ターッチ"]⟩, ⟨.opn, ["かもー"]⟩,
         ⟨.cls, ["かなーって"]⟩]
        (by decide)
      config := { cellWidth := 3, wrapCell := true }
      surface := { separators := [" "] }
      handlers := [(.put, .putToken)]
      hooks := { preRun := some .storeProgram, step := some .resync } }
    (by decide)

/-! ### The core language in other tokens -/

def jojo : Dialect :=
  Draft.declare
    { name := "jojo"
      table := TokenTable.declare
        (coreEntries
          [["スターフィンガ", "やれやれだぜ"], ["ロードローラ", "貧弱"], ["オラ"], ["無駄"],
           ["ハーミットパープル"], ["新手のスタンド使いか"],
           ["あ・・・ありのまま今起こったことを話すぜ"], ["ザ・ワールド"]])
        (by decide) }
    (by decide)

def kemono : Dialect :=
  Draft.declare
    { name := "kemono"
      table := coreTable
        ["たのしー！", "すごーい！", "たーのしー！", "すっごーい！", "なにこれなにこれ！",
         "おもしろーい！", "うわー！", "わーい！"]
        (by decide) }
    (by decide)

/-- The core language in silences of different length; the pointer wraps around. -/
def nagato : Dialect :=
  Draft.declare
    { name := "nagato"
      table := coreTable
        ["………", "…………", "…", "……", "………………", "……………", "「", "」"]
        (by decide)
      config := { edge := .wrap }
      surface := { separators := ["。"] } }
    (by decide)

def nekomimi : Dialect :=
  Draft.declare
    { name := "nekomimi"
      table := coreTable
        ["ネコミミ！", "ネコミミモード", "おにいさま", "私のしもべー", "や・く・そ・く・よ",
         "フルフルフルムーン", "キスキス…", "キス…したくなっちゃった…"]
        (by decide) }
    (by decide)

def nyaruko : Dialect :=
  Draft.declare
    { name := "nyaruko"
      table := coreTable
        ["(」・ω・)」うー(／・ω・)／にゃー", "(」・ω・)」うー!!(／・ω・)／にゃー!!",
         "(」・ω・)」うー!(／・ω・)／にゃー!", "(」・ω・)」うー!!!(／・ω・)／にゃー!!!",
         "Let's＼(・ω・)／にゃー", "cosmic!", "CHAOS☆CHAOS!", "I WANNA CHAOS!"]
        (by decide) }
    (by decide)

/-- Literals go to the tape as code points, comments are in braces, and `put` and `get` move on. -/
def tettette : Dialect :=
  Draft.declare
    { name := "tettette"
      table := TokenTable.declare
        [⟨.buf, ["ー"]⟩, ⟨.endBuf, ["てー"]⟩, ⟨.com, ["\x7b"]⟩, ⟨.endCom, ["\x7d"]⟩,
         ⟨.nxt, ["てってー"]⟩, ⟨.prv, ["てっててー"]⟩, ⟨.inc, ["ててー"]⟩, ⟨.dec, ["てっー"]⟩,
         ⟨.put, ["てってっー"]⟩, ⟨.get, ["てってってー"]⟩, ⟨.opn, ["てってっててー"]⟩,
         ⟨.cls, ["てってってっー"]⟩]
        (by decide)
      config := { tapeSize := 65536, cellWidth := 32 }
      surface := { regions := [⟨.buf, .endBuf, .literal⟩, ⟨.com, .endCom, .comment⟩] }
      handlers := [(.put, .putAdvance), (.get, .getAdvance)] }
    (by decide)

def neko : Dialect :=
  Draft.declare
    { name := "neko"
      table := coreTable
        ["にゃっ", "にゃん", "にゃにゃ", "にゃー", "にゃ。", "にゃ、", "「", "」"]
        (by decide) }
    (by decide)

/-- The classical tokens and the punctuation of prose; cells and the pointer wrap around. -/
def misa : Dialect :=
  Draft.declare
    { name := "misa"
      table := TokenTable.declare
        (coreEntries
          [[">", "→", "～", "ー"], ["<", "←", "★", "☆"], ["+", "あ", "ぁ", "お", "ぉ"],
           ["-", "っ", "ッ"], [".", "！"], [",", "？"], ["[", "「", "『"], ["]", "」", "』"]])
        (by decide)
      config := { wrapCell := true, edge := .wrap } }
    (by decide)

/-- The core language in shouts, with a short form each; output is in bytes. -/
def kq : Dialect :=
  Draft.declare
    { name := "kq"
      table := TokenTable.declare
        (coreEntries
          [["ﾀﾞｧｲｪｽ", "ｼｪﾘ"], ["ｲｪｽﾀﾞｧ", "ｼｴﾘ"], ["ﾀﾞｧﾀﾞｧ", "ﾀﾞｧ"], ["ｼｪﾘｼｪﾘ", "ﾀﾞｱ"],
           ["ｼｴﾘﾀﾞｧ", "ｲｪｽ"], ["ﾀﾞｧｼｴﾘ", "ｲｴｽ"], ["ｼｴﾘｲｪｽ", "!"], ["ｲｪｽｼｴﾘ", ","]])
        (by decide)
      config := { output := .byte } }
    (by decide)

def kapibara : Dialect :=
  Draft.declare
    { name := "kapibara"
      table := coreTable
        ["のすのす", "もでーん", "キュルッ！", "もふっ！", "むぎゅっと", "グッ！！", "ぬっくし",
         "うっとり"]
        (by decide) }
    (by decide)

/-! ### The catalog -/

def dialects : List Dialect :=
  [brainfuck, ook, braincrash, commdis, utU, jojo, kemono, nagato, nekomimi, nyaruko, tettette,
   neko, misa, kq, kapibara]

def names : List String := dialects.map (·.name)

def find? (name : String) : Option Dialect := dialects.find? fun d => d.name == name

def dialect (name : String) : Except Error Dialect :=
  match find? name with
  | some d => .ok d
  | none => .error (.unknownDialect name)

theorem names_nodup : names.Nodup := by decide

end TapeDialects.Catalog
