import Accumulator.Assembly
import Accumulator.State

namespace Accumulator

namespace Program

def fetch? (program : Program) (state : State) : Option Instruction :=
  (slotIndex? state.counter).bind program.slots.get

/-- One cycle of a machine that counts no cycles. An empty slot is passed over, and there is nothing
to do where there is no slot. -/
def cycle (program : Program) (state : State) : State :=
  match slotIndex? state.counter with
  | none => state
  | some i =>
    match program.slots.get i with
    | none => state.advance
    | some instruction =>
      if instruction.advances state then (instruction.execute state).advance
      else instruction.execute state

end Program

inductive Exit
  | halted
  | limitReached
  | outOfProgram
deriving DecidableEq, Repr

namespace Exit

def message : Exit → String
  | halted => "program halted"
  | limitReached => "instruction limit reached"
  | outOfProgram => "program counter left instruction memory"

end Exit

def defaultLimit : UInt32 := 1000

/-- A program with the state it runs on. The cycles count against one limit from the time the
program is loaded, however it is run. -/
structure Machine where
  program : Program := .empty
  state : State := {}
  cycles : UInt32 := 0
  limit : UInt32 := defaultLimit
  hitLimit : Bool := false
  trace : Bool := false

namespace Machine

def withLimit (limit : UInt32) : Machine := { limit }

def setLimit (machine : Machine) (limit : UInt32) : Machine := { machine with limit }

def setTrace (machine : Machine) (trace : Bool) : Machine := { machine with trace }

def load (machine : Machine) (source : String) : Except LoadError Machine :=
  (Program.ofSource source).map fun program =>
    { machine with program, state := {}, cycles := 0, hitLimit := false }

/-- The instruction that the next step executes. The step which reaches the limit executes none. -/
def next? (machine : Machine) : Option Instruction :=
  if machine.state.halted || machine.limit ≤ machine.cycles + 1 then none
  else machine.program.fetch? machine.state

/-- One cycle, unless the machine has halted. The cycle which reaches the limit halts the machine
and does nothing else. -/
def step (machine : Machine) : Machine :=
  if machine.state.halted then machine
  else
    let cycles := machine.cycles + 1
    if machine.limit ≤ cycles then
      { machine with cycles, hitLimit := true, state := { machine.state with halted := true } }
    else { machine with cycles, state := machine.program.cycle machine.state }

def exit? (machine : Machine) : Option Exit :=
  if machine.state.halted then some (if machine.hitLimit then .limitReached else .halted)
  else if (slotIndex? machine.state.counter).isNone then some .outOfProgram
  else none

/-- A bound on the steps of a run. A count that has passed the limit is stopped by the next step,
unless it wraps around to zero first. -/
def remaining (machine : Machine) : Nat :=
  if machine.state.halted then 0
  else if machine.cycles < machine.limit then machine.limit.toNat - machine.cycles.toNat
  else machine.limit.toNat + 1

theorem remaining_step_lt {machine : Machine} (h : machine.exit? = none) :
    machine.step.remaining < machine.remaining := by
  have halted : machine.state.halted = false := by
    cases hh : machine.state.halted <;> simp_all [exit?]
  have positive : 0 < machine.remaining := by
    simp only [remaining, halted, Bool.false_eq_true, ↓reduceIte, UInt32.lt_iff_toNat_lt]
    split <;> omega
  by_cases reached : machine.limit ≤ machine.cycles + 1
  · simpa [step, halted, reached, remaining] using positive
  · have counted : (machine.cycles + 1).toNat = (machine.cycles.toNat + 1) % 2 ^ 32 := by
      simp [UInt32.toNat_add]
    simp only [step, halted, reached, Bool.false_eq_true, ↓reduceIte]
    simp only [UInt32.le_iff_toNat_le, Nat.not_le] at reached
    simp only [remaining, halted, Bool.false_eq_true, ↓reduceIte, UInt32.lt_iff_toNat_lt]
    have bounded := machine.limit.toNat_lt
    split <;> split <;> omega

def run (machine : Machine) : Exit × Machine :=
  match _h : machine.exit? with
  | some exit => (exit, machine)
  | none => run machine.step
termination_by machine.remaining
decreasing_by exact remaining_step_lt _h

structure TraceEntry where
  counter : Int32
  instruction : Instruction
deriving DecidableEq, Repr

def stepTrace (machine : Machine) : List TraceEntry :=
  if machine.trace then (machine.next?.map (TraceEntry.mk machine.state.counter)).toList else []

def traceOnto (entries : Array TraceEntry) (machine : Machine) : Array TraceEntry :=
  match _h : machine.exit? with
  | some _ => entries
  | none => traceOnto (entries ++ machine.stepTrace) machine.step
termination_by machine.remaining
decreasing_by exact remaining_step_lt _h

def runTrace (machine : Machine) : List TraceEntry :=
  if machine.trace then (traceOnto #[] machine).toList else []

end Machine

end Accumulator
