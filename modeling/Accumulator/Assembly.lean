import Accumulator.LoadError
import Accumulator.Program

namespace Accumulator.Assembly

open Text

def readInteger (line : Nat) (opcode : Opcode) (operand : Word) : Except LoadError Int32 :=
  (Integer.readInt32 operand.text.toList).mapError fun fault =>
    ⟨line, opcode, operand.span, .invalidInteger operand.text fault⟩

/-- Reads the words of a line whose first one is the mnemonic of `opcode`. Of the words after it,
only the first can be an operand. -/
def readInstruction (line : Nat) (opcode : Opcode) (mnemonic : Word) (operands : List Word) :
    Except LoadError Instruction :=
  match opcode.form, operands with
  | .bare instruction, _ => .ok instruction
  | _, [] => .error ⟨line, opcode, mnemonic.span, .missingOperand⟩
  | .symbol build, operand :: _ => .ok (build operand.text)
  | .literal build, operand :: _ => (readInteger line opcode operand).map build
  | .address build, operand :: _ => (readInteger line opcode operand).map build

def readSlot (line : Nat) : List Word → Except LoadError (Option Instruction)
  | [] => .ok none
  | mnemonic :: operands =>
    match Opcode.ofMnemonic? mnemonic.text with
    | none => .ok none
    | some opcode => (readInstruction line opcode mnemonic operands).map some

def dropReturn (text : List Char) : List Char :=
  if text.getLast? = some '\r' then text.dropLast else text

/-- Reads lines of which the first has the number `line` and starts at byte `offset`, up to the
first fault. -/
def readLines (line offset : Nat) : List (List Char) → Except LoadError (List (Option Instruction))
  | [] => .ok []
  | text :: texts => do
    let slot ← readSlot line (words offset (dropReturn text))
    let slots ← readLines (line + 1) (offset + byteLength text + 1) texts
    return slot :: slots

def lines (source : String) : List (List Char) :=
  source.toList.splitOn '\n'

end Accumulator.Assembly

namespace Accumulator.Program

/-- Reads a line into each slot. Lines past the end of instruction memory are not read. -/
def ofSource (source : String) : Except LoadError Program :=
  (Assembly.readLines 1 0 ((Assembly.lines source).take programSize)).map ofList

end Accumulator.Program
