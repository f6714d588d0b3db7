import Accumulator.CommandLine.Execution
import Accumulator.Main
import Accumulator.Proofs.Ceiling
import Accumulator.Proofs.History
import Accumulator.Proofs.Simulation
import Accumulator.Proofs.Decimal
import Accumulator.Proofs.Runs
import Accumulator.Proofs.SourceText
import Accumulator.Proofs.Bytes
import Accumulator.Proofs.Places
import Accumulator.Proofs.Lines
import Accumulator.Proofs.Spans
import Accumulator.Proofs.RoundTrip
import Accumulator.Proofs.Commands
import Accumulator.Proofs.Session
import Accumulator.Proofs.Halting
import Accumulator.Proofs.Checked
import Accumulator.Proofs.Interchange
import Accumulator.Proofs.Escapes
import Accumulator.Proofs.Uncoloured
import Accumulator.Proofs.Minimal
import Accumulator.Proofs.Arguments
import Accumulator.Proofs.Subcommands
import Accumulator.Proofs.Renaming
import Accumulator.Proofs.Replay
import Accumulator.Proofs.Interning
import Accumulator.Proofs.FirstUse
import Accumulator.Proofs.Forward
import Accumulator.Proofs.Log
import Accumulator.Proofs.Arithmetic
import Accumulator.Proofs.Operands
import Accumulator.Proofs.LineEnds
import Accumulator.Proofs.Legible
import Accumulator.Proofs.Vocabulary
import Accumulator.Proofs.LineCursor
import Accumulator.Proofs.ScriptCursor
import Accumulator.Proofs.Stripping
