import Accumulator.Display
import Accumulator.Machine

namespace Accumulator.Display

open Text

def listHeading (display : Display) (channel : Channel) (title : String) : Transcript :=
  display.print channel (display.paint .bold s!"------- {title} -------" ++ "\n")

def instructionLine (display : Display) (machine : Machine) (address : Fin programSize)
    (instruction : Instruction) : String :=
  let number := toString address.val
  if display.minimal then number ++ ": " ++ instruction.render ++ "\n"
  else
    let isNext := machine.state.counter.toInt = address.val ∧ ¬ machine.state.halted
    let marker := if isNext then display.paint .green "-->" else "   "
    marker ++ " " ++ padLeft 3 number ++ ": " ++ instruction.render ++ "\n"

def listInstructions (display : Display) (channel : Channel) (machine : Machine) : Transcript :=
  display.listHeading channel "Instruction Memory" ++
    machine.program.entries.flatMap fun (address, instruction) =>
      display.print channel (display.instructionLine machine address instruction)

def flagText (flag : Bool) : String := if flag then "1" else "0"

def registerRows (state : State) : List (String × String) :=
  [("Accumulator", toString state.accumulator.toInt),
    ("Data Register", toString state.dataRegister.toInt),
    ("Program Counter", toString state.counter.toInt),
    ("Zero Bit", flagText state.zero),
    ("Overflow Bit", flagText state.overflow)]

/-- A row of the box around the registers, whose edges are dim and whose names are bold. -/
def boxRow (display : Display) (channel : Channel) (name value : String) : Transcript :=
  display.print channel "\x1b[2m│\x1b[0m" ++
    display.print channel (" \x1b[1m" ++ padRight 15 name ++ "\x1b[0m " ++ padLeft 12 value) ++
    display.print channel " \x1b[2m│\x1b[0m\n"

def listRegisters (display : Display) (channel : Channel) (machine : Machine) : Transcript :=
  let rows := registerRows machine.state
  if display.minimal then
    display.listHeading channel "Registers" ++
      rows.flatMap fun (name, value) =>
        display.print channel (padRight 15 name ++ ": " ++ value ++ "\n")
  else
    let edge := "".pushn '─' 30
    display.print channel ("\x1b[2m┌" ++ edge ++ "┐\x1b[0m\n") ++
      (rows.flatMap fun (name, value) => display.boxRow channel name value) ++
      display.print channel ("\x1b[2m└" ++ edge ++ "┘\x1b[0m\n")

def dataLine (display : Display) (entry : DataEntry) : String :=
  let number := toString entry.address.toNat
  let value := toString entry.value.toInt
  match entry.label? with
  | some label => number ++ " " ++ display.paint .cyan label ++ ": " ++ value ++ "\n"
  | none => number ++ " " ++ value ++ "\n"

def listData (display : Display) (channel : Channel) (machine : Machine) : Transcript :=
  display.listHeading channel "Data Memory" ++
    machine.state.dataEntries.flatMap fun entry =>
      display.print channel (display.dataLine entry)

def listMachine (display : Display) (channel : Channel) (machine : Machine) : Transcript :=
  display.listInstructions channel machine ++ display.listRegisters channel machine ++
    display.listData channel machine

def limitNotice (display : Display) (machine : Machine) : Transcript :=
  let limit := machine.limit.toNat
  display.print .remark s!"{limit} instructions reached! Terminating ...\n"

def exitNotice (display : Display) (machine : Machine) : Exit → Transcript
  | .halted => display.print .remark "Halted.\n"
  | .limitReached => display.limitNotice machine
  | .outOfProgram =>
    let counter := machine.state.counter.toInt
    display.print .remark s!"Program counter left instruction memory at {counter}. Stopping.\n"

def traceNotice (display : Display) (entries : List Machine.TraceEntry) : Transcript :=
  entries.flatMap fun entry =>
    let counter := padLeft 3 (toString entry.counter.toInt)
    let instruction := entry.instruction.render
    display.print .remark s!"[{counter}] {instruction}\n"

end Accumulator.Display
