import TapeDialects.MachineConfig
import TapeDialects.Program

/-!
# Settings

The fixed part of a dialect that its instructions may consult: its tokens, its
machine and its surface. A setting is enough to read and write programs.
-/

namespace TapeDialects

structure Setting where
  table : TokenTable
  config : MachineConfig := {}
  surface : Surface := {}
  deriving Inhabited

namespace Setting

def lex (d : Setting) (source : String) : Except Error Lexed := d.table.lex d.surface source

def compile (d : Setting) (source : String) : Except Error Program := do
  let lexed ← d.lex source
  d.table.programOf lexed.lexemes

def render (d : Setting) (p : Program) : Except Error String := d.table.writeProgram d.surface p

def convert (source target : Setting) (text : String) : Except Error String := do
  let p ← source.compile text
  target.render p

end Setting

end TapeDialects
