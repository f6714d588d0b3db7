import Accumulator.Instruction
import Accumulator.Memory

namespace Accumulator

structure State where
  accumulator : Int32 := 0
  dataRegister : Int32 := 0
  counter : Int32 := 0
  zero : Bool := false
  overflow : Bool := false
  halted : Bool := false
  data : Vector Int32 dataSize := Vector.replicate dataSize 0
  symbols : SymbolTable := .empty

structure DataEntry where
  address : Address
  label? : Option String
  value : Int32
deriving DecidableEq, Repr

namespace State

def dataAt? (state : State) (address : Address) : Option Int32 :=
  (dataIndex? address).map state.data.get

/-- Writes a word; an address that no word stands at is left alone. -/
def store (state : State) (address : Address) (value : Int32) : State :=
  match dataIndex? address with
  | some i => { state with data := state.data.set i value i.isLt }
  | none => state

def intern (state : State) (label : String) : Address × State :=
  let (address, symbols) := state.symbols.intern label
  (address, { state with symbols })

/-- Takes an exact sum or difference: the accumulator keeps its low 32 bits, and both flags speak
of this result alone. -/
def setResult (state : State) (result : Int) : State :=
  let accumulator := Int32.ofInt result
  { state with
    accumulator
    zero := accumulator == 0
    overflow := decide (result < Int32.minValue.toInt ∨ Int32.maxValue.toInt < result) }

def advance (state : State) : State := { state with counter := state.counter + 1 }

def valueOf? (state : State) (label : String) : Option Int32 :=
  (state.symbols.address? label).bind state.dataAt?

def entryAt (state : State) (i : Fin dataSize) : DataEntry :=
  let address := UInt16.ofNat (dataStart + i)
  ⟨address, state.symbols.label? address, state.data.get i⟩

def dataEntries (state : State) : List DataEntry :=
  ((List.finRange dataSize).map state.entryAt).filter fun entry =>
    entry.label?.isSome || entry.value != 0

end State

namespace Instruction

/-- Whether the program counter moves on to the next slot after the instruction. A jump that is
taken has placed it already, and a halted machine stays where it is. -/
def advances (state : State) : Instruction → Bool
  | jmp _ | hlt => false
  | jzs _ => !state.zero
  | jvs _ => !state.overflow
  | _ => true

def execute (instruction : Instruction) (state : State) : State :=
  match instruction with
  | dec label =>
    let (address, state) := state.intern label
    state.store address 0
  | ldi value => { state with accumulator := value }
  | lda label =>
    let (address, state) := state.intern label
    { state with accumulator := (state.dataAt? address).getD state.accumulator }
  | str label =>
    let (address, state) := state.intern label
    state.store address state.accumulator
  | xch => { state with accumulator := state.dataRegister, dataRegister := state.accumulator }
  | add => state.setResult (state.accumulator.toInt + state.dataRegister.toInt)
  | sub => state.setResult (state.accumulator.toInt - state.dataRegister.toInt)
  | jmp target => { state with counter := target }
  | jzs target => if state.zero then { state with counter := target } else state
  | jvs target => if state.overflow then { state with counter := target } else state
  | hlt => { state with halted := true }

end Instruction

end Accumulator
