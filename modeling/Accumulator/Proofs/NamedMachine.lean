import Accumulator.Machine
import Mathlib

namespace Accumulator

abbrev Bindings := List (String × Int)

namespace Bindings

def labels (vs : Bindings) : List String := vs.map Prod.fst

/-- A variable that was not mentioned before comes last and starts at zero. -/
def declare (vs : Bindings) (label : String) : Bindings :=
  if label ∈ vs.labels then vs else vs ++ [(label, 0)]

def assign (vs : Bindings) (label : String) (value : Int) : Bindings :=
  vs.map fun v => if v.1 = label then (label, value) else v

end Bindings

/-- A machine that has variables in the place of addresses and of a memory, and that counts and
computes with exact integers. -/
structure NamedMachine where
  accumulator : Int := 0
  dataRegister : Int := 0
  counter : Int := 0
  zero : Bool := false
  overflow : Bool := false
  halted : Bool := false
  hitLimit : Bool := false
  cycles : Nat := 0
  bindings : Bindings := []

namespace NamedMachine

def advance (machine : NamedMachine) : NamedMachine :=
  { machine with counter := machine.counter + 1 }

/-- The residue of an integer that is at least `-2 ^ 31` and less than `2 ^ 31`. -/
def residue (n : Int) : Int := (n + 2 ^ 31) % 2 ^ 32 - 2 ^ 31

def setResult (machine : NamedMachine) (result : Int) : NamedMachine :=
  { machine with
    accumulator := residue result
    zero := decide (residue result = 0)
    overflow := decide (result < -2 ^ 31 ∨ 2 ^ 31 ≤ result) }

def branch (machine : NamedMachine) (condition : Bool) (target : Int) : NamedMachine :=
  if condition then { machine with counter := target } else machine.advance

def execute (instruction : Instruction) (machine : NamedMachine) : NamedMachine :=
  match instruction with
  | .dec label =>
    { machine with bindings := (machine.bindings.declare label).assign label 0 }.advance
  | .ldi value => { machine with accumulator := value.toInt }.advance
  | .lda label =>
    let bindings := machine.bindings.declare label
    { machine with bindings, accumulator := (bindings.lookup label).getD 0 }.advance
  | .str label =>
    let bindings := machine.bindings.declare label
    { machine with bindings := bindings.assign label machine.accumulator }.advance
  | .xch =>
    { machine with
      accumulator := machine.dataRegister
      dataRegister := machine.accumulator }.advance
  | .add => (machine.setResult (machine.accumulator + machine.dataRegister)).advance
  | .sub => (machine.setResult (machine.accumulator - machine.dataRegister)).advance
  | .jmp target => { machine with counter := target.toInt }
  | .jzs target => machine.branch machine.zero target.toInt
  | .jvs target => machine.branch machine.overflow target.toInt
  | .hlt => { machine with halted := true }

def cycle (program : Program) (machine : NamedMachine) : NamedMachine :=
  if machine.counter < 0 ∨ 127 < machine.counter then machine
  else
    match program.slots[machine.counter.toNat]?.join with
    | none => machine.advance
    | some instruction => machine.execute instruction

theorem cycle_of_slot {program : Program} {machine : NamedMachine} {i : Fin programSize}
    (h : machine.counter = i.val) :
    machine.cycle program =
      (program.slots.get i).elim machine.advance (machine.execute ·) := by
  have hi : i.val < 128 := i.isLt
  rw [cycle, if_neg (by rw [h]; omega), h, Int.toNat_natCast, Vector.getElem?_eq_getElem i.isLt,
    Option.join_some, ← Vector.get_eq_getElem]
  cases program.slots.get i <;> rfl

def step (program : Program) (limit : Nat) (machine : NamedMachine) : NamedMachine :=
  if machine.halted then machine
  else if limit ≤ machine.cycles + 1 then
    { machine with cycles := machine.cycles + 1, halted := true, hitLimit := true }
  else { machine with cycles := machine.cycles + 1 }.cycle program

end NamedMachine

end Accumulator
