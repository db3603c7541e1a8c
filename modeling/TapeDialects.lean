import TapeDialects.Act
import TapeDialects.Catalog
import TapeDialects.Cli.Command
import TapeDialects.Cli.Execute
import TapeDialects.Cli.Folder
import TapeDialects.Definition
import TapeDialects.Dialect.Basic
import TapeDialects.Dialect.Handler
import TapeDialects.Dialect.Run
import TapeDialects.Dialect.Setting
import TapeDialects.Error
import TapeDialects.Fault
import TapeDialects.Machine.Bracket
import TapeDialects.Machine.Effect
import TapeDialects.Machine.Lockstep
import TapeDialects.Machine.Session
import TapeDialects.MachineConfig
import TapeDialects.Main
import TapeDialects.Opcode
import TapeDialects.Program
import TapeDialects.Proofs.Act.Agrees
import TapeDialects.Proofs.Act.Keeps
import TapeDialects.Proofs.Act.Local
import TapeDialects.Proofs.Act.Raises
import TapeDialects.Proofs.Act.Transfers
import TapeDialects.Proofs.Catalog.Conversion
import TapeDialects.Proofs.Catalog.Greeting
import TapeDialects.Proofs.Catalog.Literals
import TapeDialects.Proofs.Catalog.SelfModifying
import TapeDialects.Proofs.Dialect.Defining
import TapeDialects.Proofs.Dialect.NewTokens
import TapeDialects.Proofs.Dialect.Uses
import TapeDialects.Proofs.Machine.Copies
import TapeDialects.Proofs.Machine.Jump
import TapeDialects.Proofs.Machine.Partner
import TapeDialects.Proofs.Machine.Resync
import TapeDialects.Proofs.Program.Block
import TapeDialects.Proofs.Program.Compiling
import TapeDialects.Proofs.Program.Converting
import TapeDialects.Proofs.Program.Delimited
import TapeDialects.Proofs.Program.Joining
import TapeDialects.Proofs.Program.Reading
import TapeDialects.Proofs.Program.RoundTrip
import TapeDialects.Proofs.Program.Unclosed
import TapeDialects.Proofs.Program.Writing
import TapeDialects.Proofs.Run.Agreeing
import TapeDialects.Proofs.Run.Atomic
import TapeDialects.Proofs.Run.Clearing
import TapeDialects.Proofs.Run.Draining
import TapeDialects.Proofs.Run.Engine
import TapeDialects.Proofs.Run.Following
import TapeDialects.Proofs.Run.Halting
import TapeDialects.Proofs.Run.Handled
import TapeDialects.Proofs.Run.History
import TapeDialects.Proofs.Run.Leads
import TapeDialects.Proofs.Run.Limited
import TapeDialects.Proofs.Run.Printed
import TapeDialects.Proofs.Run.Relaxed
import TapeDialects.Proofs.Run.Relocated
import TapeDialects.Proofs.Run.Sound
import TapeDialects.Proofs.Run.Stable
import TapeDialects.Proofs.Run.Structured
import TapeDialects.Proofs.Source.Afresh
import TapeDialects.Proofs.Source.Cuts
import TapeDialects.Proofs.Source.Extent
import TapeDialects.Proofs.Source.FirstToken
import TapeDialects.Proofs.Source.Foreign
import TapeDialects.Proofs.Source.Scans
import TapeDialects.Proofs.Source.Standing
import TapeDialects.Proofs.Stream.Decoding
import TapeDialects.Proofs.Stream.Echo
import TapeDialects.Proofs.Stream.Failing
import TapeDialects.Proofs.Tape.Bits
import TapeDialects.Proofs.Tape.Bitwise
import TapeDialects.Proofs.Tape.Conforms
import TapeDialects.Proofs.Tape.Moves
import TapeDialects.Proofs.Tape.Paths
import TapeDialects.Proofs.Tape.Relaxed
import TapeDialects.Proofs.Tape.Stable
import TapeDialects.Proofs.Tape.Sums
import TapeDialects.Proofs.Tape.Texts
import TapeDialects.Proofs.TokenTable.Lookup
import TapeDialects.Proofs.TokenTable.Replacing
import TapeDialects.Source.Cursor
import TapeDialects.Source.Lexing
import TapeDialects.Source.Occurrence
import TapeDialects.Source.Piece
import TapeDialects.Stream.Basic
import TapeDialects.Stream.Sink
import TapeDialects.Stream.Source
import TapeDialects.Surface
import TapeDialects.Tape.Basic
import TapeDialects.Tape.Bitwise
import TapeDialects.Text.Quoted
import TapeDialects.TokenTable
import TapeDialects.Toml.Document
import TapeDialects.Toml.Scalar
import TapeDialects.Toml.Text
import TapeDialects.Toml.Value
