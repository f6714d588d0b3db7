import Accumulator.Opcode

namespace Accumulator

inductive Instruction
  | dec (label : String)
  | ldi (value : Int32)
  | lda (label : String)
  | str (label : String)
  | xch
  | add
  | sub
  | jmp (target : Int32)
  | jzs (target : Int32)
  | jvs (target : Int32)
  | hlt
deriving DecidableEq, Repr

inductive Operand
  | symbol (label : String)
  | integer (value : Int32)
deriving DecidableEq, Repr

namespace Operand

def text : Operand → String
  | symbol label => label
  | integer value => toString value.toInt

end Operand

namespace Instruction

def opcode : Instruction → Opcode
  | dec _ => .dec
  | ldi _ => .ldi
  | lda _ => .lda
  | str _ => .str
  | xch => .xch
  | add => .add
  | sub => .sub
  | jmp _ => .jmp
  | jzs _ => .jzs
  | jvs _ => .jvs
  | hlt => .hlt

def operand? : Instruction → Option Operand
  | dec label | lda label | str label => some (.symbol label)
  | ldi value => some (.integer value)
  | jmp target | jzs target | jvs target => some (.integer target)
  | xch | add | sub | hlt => none

def render (instruction : Instruction) : String :=
  match instruction.operand? with
  | none => instruction.opcode.mnemonic
  | some operand => instruction.opcode.mnemonic ++ " " ++ operand.text

end Instruction

inductive OperandKind
  | none
  | symbol
  | literal
  | address
deriving DecidableEq, Repr

/-- How an instruction is made of an operand. -/
inductive Form
  | bare (instruction : Instruction)
  | symbol (build : String → Instruction)
  | literal (build : Int32 → Instruction)
  | address (build : Int32 → Instruction)

namespace Form

def operandKind : Form → OperandKind
  | bare _ => .none
  | symbol _ => .symbol
  | literal _ => .literal
  | address _ => .address

end Form

namespace Opcode

def form : Opcode → Form
  | dec => .symbol .dec
  | ldi => .literal .ldi
  | lda => .symbol .lda
  | str => .symbol .str
  | xch => .bare .xch
  | add => .bare .add
  | sub => .bare .sub
  | jmp => .address .jmp
  | jzs => .address .jzs
  | jvs => .address .jvs
  | hlt => .bare .hlt

def operandKind (opcode : Opcode) : OperandKind := opcode.form.operandKind

end Opcode

end Accumulator
