import Accumulator.Instruction
import Accumulator.Text.Integer
import Accumulator.Text.Words

namespace Accumulator

open Text

namespace LoadError

inductive Cause
  | missingOperand
  | invalidInteger (operand : String) (fault : Integer.Fault)
deriving DecidableEq, Repr

end LoadError

/-- The first fault of a source text: the number of its line, counted from one, the opcode that
stands on the line, and the bytes of the source to point at. -/
structure LoadError where
  line : Nat
  opcode : Opcode
  span : Span
  cause : LoadError.Cause
deriving DecidableEq, Repr

structure Mark where
  offset : Nat
  length : Nat
  text : String
deriving DecidableEq, Repr

structure Diagnostic where
  text : String
  code : String
  help : String
  marks : List Mark
deriving DecidableEq, Repr

def Diagnostic.contextLines : Nat := 4

def Opcode.help (opcode : Opcode) : String :=
  let name := opcode.mnemonic
  match opcode.operandKind with
  | .none => s!"`{name}` takes no operands"
  | .symbol => s!"`{name}` takes a variable name, like `{name} x`"
  | .literal => s!"`{name}` takes a decimal integer from -2147483648 to 2147483647"
  | .address => s!"`{name}` takes an instruction address, like `{name} 0`"

namespace LoadError

def message (error : LoadError) : String :=
  let line := error.line
  let name := error.opcode.mnemonic
  match error.cause with
  | .missingOperand => s!"Line {line}: missing operand for `{name}`."
  | .invalidInteger operand fault =>
    let reason := fault.message
    s!"Line {line}: invalid integer `{operand}` for `{name}`: {reason}."

def code (error : LoadError) : String :=
  match error.cause with
  | .missingOperand => "load::missing_operand"
  | .invalidInteger .. => "load::bad_int"

def markText (error : LoadError) : String :=
  match error.cause with
  | .missingOperand => "expected operand after this"
  | .invalidInteger .. => "invalid integer"

def diagnostic (error : LoadError) : Diagnostic where
  text := error.message
  code := error.code
  help := error.opcode.help
  marks := [⟨error.span.start, error.span.length, error.markText⟩]

end LoadError

end Accumulator
