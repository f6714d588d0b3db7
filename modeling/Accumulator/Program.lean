import Accumulator.Instruction
import Accumulator.Memory

namespace Accumulator

structure Program where
  slots : Vector (Option Instruction) programSize
deriving DecidableEq

namespace Program

def empty : Program := ⟨Vector.replicate programSize none⟩

/-- Fills the slots from the first one on. The rest stay empty, and what has no slot is left out. -/
def ofList (slots : List (Option Instruction)) : Program :=
  ⟨Vector.ofFn fun i => slots[i.val]?.join⟩

def get? (program : Program) (address : Address) : Option Instruction :=
  program.slots[address.toNat]?.join

def entries (program : Program) : List (Fin programSize × Instruction) :=
  (List.finRange programSize).filterMap fun i => (program.slots.get i).map fun instruction =>
    (i, instruction)

def render (program : Program) : String :=
  String.intercalate "\n" (program.slots.toList.map fun slot => slot.elim "" Instruction.render)

end Program

end Accumulator
