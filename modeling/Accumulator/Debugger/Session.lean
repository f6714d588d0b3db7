import Accumulator.Debugger.Entry
import Accumulator.Listing

namespace Accumulator.Debugger

structure Console where
  display : Display := {}
  terminal : Bool := false
deriving DecidableEq, Repr

structure Turn where
  transcript : Transcript
  machine : Machine
  finished : Bool

def promptText : String := "Enter command (s, a, or q): "

def helpText : String :=
  "Commands:\n" ++
  "    s, step     Execute the next instruction and print the machine\n" ++
  "    a, all      Execute until HLT or the instruction limit, then print the machine\n" ++
  "    p, print    Print instruction memory, registers, and data memory\n" ++
  "    h, help     Show this message\n" ++
  "    q, quit     Leave the prompt\n" ++
  "\n" ++
  "Commands may be chained with `;`, e.g. `s;s;a`.\n" ++
  "The prompt closes once the program halts."

def Command.apply (machine : Machine) : Command → Machine
  | step => machine.step
  | all => machine.run.2
  | help | print | quit => machine

namespace Console

def report (console : Console) (machine : Machine) : Command → Transcript
  | .help => console.display.print .remark ("\n" ++ helpText ++ "\n")
  | .step =>
    let after := machine.step
    console.display.traceNotice machine.stepTrace ++ console.display.listMachine .listing after ++
      (if after.hitLimit then console.display.limitNotice after else [])
  | .all =>
    let (exit, after) := machine.run
    console.display.traceNotice machine.runTrace ++ console.display.listMachine .listing after ++
      console.display.exitNotice after exit
  | .print => console.display.listMachine .listing machine
  | .quit => console.display.print .remark "Good bye.\n"

def refuse (console : Console) (refusal : Refusal) : Transcript :=
  console.display.print .remark (refusal.message ++ "\n") ++
    console.display.print .remark "Type `help` for a list of commands.\n"

def ask (console : Console) : Entry → Transcript
  | .scripted _ => []
  | .typed _ | .endOfInput =>
    if console.terminal then console.display.print .remark ("\x1b[1m" ++ promptText ++ "\x1b[0m")
    else []

/-- Repeats an entry that the user did not see being typed. -/
def echo (console : Console) (entry : Entry) : Transcript :=
  let shown :=
    console.display.print .aside ("\x1b[1m" ++ promptText) ++
      console.display.print .aside (entry.shown ++ "\x1b[0m\n")
  match entry with
  | .scripted _ => shown
  | .typed _ | .endOfInput => if console.terminal then [] else shown

/-- Acts on an entry that was read. A session is finished by leaving it, and by a command after
which the machine is halted. -/
def respond (console : Console) (entry : Entry) (machine : Machine) : Turn :=
  if entry.isEmpty then ⟨[], machine, false⟩
  else
    match entry.command with
    | .error refusal => ⟨console.echo entry ++ console.refuse refusal, machine, false⟩
    | .ok command =>
      let after := command.apply machine
      ⟨console.echo entry ++ console.report machine command, after,
        command = .quit || after.state.halted⟩

def session (console : Console) : List Entry → Machine → Transcript × Machine
  | [], machine => ([], machine)
  | entry :: entries, machine =>
    let turn := console.respond entry machine
    let shown := console.ask entry ++ turn.transcript
    if turn.finished then (shown, turn.machine)
    else
      let (rest, last) := session console entries turn.machine
      (shown ++ rest, last)

end Console

end Accumulator.Debugger
