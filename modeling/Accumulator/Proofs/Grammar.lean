import Accumulator.Proofs.Decimal
import Accumulator.Proofs.Runs

namespace Accumulator

open Text

namespace Assembly

inductive Fault
  | missingOperand (opcode : Opcode)
  | invalidInteger (opcode : Opcode) (operand : String)
deriving DecidableEq, Repr

def decodeInteger (opcode : Opcode) (operand : String) (build : Int32 → Instruction) :
    Except Fault (Option Instruction) :=
  match Integer.int32? operand.toList with
  | some value => .ok (some (build value))
  | none => .error (.invalidInteger opcode operand)

def decodeWords : List String → Except Fault (Option Instruction)
  | "XCH" :: _ => .ok (some .xch)
  | "ADD" :: _ => .ok (some .add)
  | "SUB" :: _ => .ok (some .sub)
  | "HLT" :: _ => .ok (some .hlt)
  | "DEC" :: label :: _ => .ok (some (.dec label))
  | "LDA" :: label :: _ => .ok (some (.lda label))
  | "STR" :: label :: _ => .ok (some (.str label))
  | "LDI" :: operand :: _ => decodeInteger .ldi operand .ldi
  | "JMP" :: operand :: _ => decodeInteger .jmp operand .jmp
  | "JZS" :: operand :: _ => decodeInteger .jzs operand .jzs
  | "JVS" :: operand :: _ => decodeInteger .jvs operand .jvs
  | ["DEC"] => .error (.missingOperand .dec)
  | ["LDA"] => .error (.missingOperand .lda)
  | ["STR"] => .error (.missingOperand .str)
  | ["LDI"] => .error (.missingOperand .ldi)
  | ["JMP"] => .error (.missingOperand .jmp)
  | ["JZS"] => .error (.missingOperand .jzs)
  | ["JVS"] => .error (.missingOperand .jvs)
  | _ => .ok none

/-- What a line stands for: the instruction in its slot, or nothing, or a fault. -/
def decode (line : List Char) : Except Fault (Option Instruction) :=
  decodeWords ((runs line).map String.ofList)

end Assembly

def LoadError.fault (error : LoadError) : Assembly.Fault :=
  match error.cause with
  | .missingOperand => .missingOperand error.opcode
  | .invalidInteger operand _ => .invalidInteger error.opcode operand

namespace Assembly

theorem decodeWords_of_not_mnemonic {word : String} (h : Opcode.ofMnemonic? word = none)
    (words : List String) : decodeWords (word :: words) = .ok none := by
  unfold decodeWords
  split
  case h_19 => rfl
  all_goals
    next he =>
      cases he
      exact absurd h (by decide)

theorem readInteger_decode (line : Nat) (opcode : Opcode) (operand : Word)
    (build : Int32 → Instruction) :
    (((readInteger line opcode operand).map build).map some).mapError LoadError.fault =
      decodeInteger opcode operand.text build := by
  have hr := Integer.toOption_readInt32 operand.text.toList
  rw [readInteger, decodeInteger, ← hr]
  cases Integer.readInt32 operand.text.toList <;> rfl

theorem readSlot_decode (line : Nat) (ws : List Word) :
    (readSlot line ws).mapError LoadError.fault = decodeWords (ws.map Word.text) := by
  cases ws with
  | nil => rfl
  | cons mnemonic operands =>
    rw [readSlot, List.map_cons]
    cases ho : Opcode.ofMnemonic? mnemonic.text with
    | none => exact (decodeWords_of_not_mnemonic ho _).symm
    | some opcode =>
      rw [Opcode.ofMnemonic?_eq_some_iff.1 ho]
      cases opcode with
      | xch | add | sub | hlt => rfl
      | dec | lda | str => cases operands <;> rfl
      | ldi | jmp | jzs | jvs =>
        cases operands with
        | nil => rfl
        | cons operand operands => exact readInteger_decode line _ operand _

theorem readLine_decode (line offset : Nat) (text : List Char) :
    (readSlot line (words offset (dropReturn text))).mapError LoadError.fault = decode text := by
  rw [readSlot_decode, map_text_words, runs_dropReturn, decode]

theorem readLine_eq_ok_iff {line offset : Nat} {text : List Char} {slot : Option Instruction} :
    readSlot line (words offset (dropReturn text)) = .ok slot ↔ decode text = .ok slot := by
  rw [← readLine_decode line offset]
  cases readSlot line (words offset (dropReturn text)) <;> simp [Except.mapError]

end Assembly

end Accumulator
