namespace Accumulator

inductive Opcode
  | dec | ldi | lda | str | xch | add | sub | jmp | jzs | jvs | hlt
deriving DecidableEq, Repr

namespace Opcode

def all : List Opcode := [dec, ldi, lda, str, xch, add, sub, jmp, jzs, jvs, hlt]

def mnemonic : Opcode → String
  | dec => "DEC"
  | ldi => "LDI"
  | lda => "LDA"
  | str => "STR"
  | xch => "XCH"
  | add => "ADD"
  | sub => "SUB"
  | jmp => "JMP"
  | jzs => "JZS"
  | jvs => "JVS"
  | hlt => "HLT"

def ofMnemonic? (text : String) : Option Opcode :=
  all.find? fun opcode => opcode.mnemonic = text

theorem ofMnemonic?_eq_some_iff {text : String} {opcode : Opcode} :
    ofMnemonic? text = some opcode ↔ text = opcode.mnemonic := by
  constructor
  · intro h
    have hm := List.find?_some h
    exact (of_decide_eq_true hm).symm
  · rintro rfl
    cases opcode <;> decide

end Opcode

end Accumulator
