import Accumulator.CommandLine.Arguments
import Accumulator.Debugger.Session
import Accumulator.Settings

namespace Accumulator.CommandLine

open Text

/-- How other software words what the program leaves to it: the usage and the mistakes of a list of
arguments, why the file at a path cannot be read, and the diagnostic of a source text. -/
structure Wording where
  usage : List String → String := fun _ => ""
  misuse : List String → String := fun _ => ""
  unreadable : String → String := fun _ => ""
  diagnostic : String → Diagnostic → String := fun _ _ => ""

/-- What the program is given beside its arguments. A file that cannot be read as text has no
contents. -/
structure Surroundings where
  contents? : Option String := none
  input : ByteArray := .empty
  settings : Settings := .ofVariable none
  colour : Bool := false
  wording : Wording := {}

inductive Status
  | success
  | failure
  | misuse
deriving DecidableEq, Repr

def Status.code : Status → Nat
  | success => 0
  | failure => 1
  | misuse => 2

structure Outcome where
  transcript : Transcript
  status : Status

def versionNumber : String := "0.1.0"

def welcomeText : String :=
  "\n~ ali v" ++ versionNumber ++ " ~\n" ++
  "\nWelcome to ali, an interpreter for a small accumulator machine:\n" ++
  "two registers, two flags, 128 instruction slots and 128 words of data.\n" ++
  "Please use `-h` or `--help` to access the usage instructions.\n\n"

def progress (display : Display) (style : Style) (verb text : String) : Transcript :=
  if display.minimal then []
  else [⟨.output, display.paint style (padLeft 12 verb) ++ " " ++ text ++ "\n"⟩]

def fileProgress (display : Display) (style : Style) (verb path : String) : Transcript :=
  progress display style verb s!"target {path}"

def loadFile (display : Display) (surroundings : Surroundings) (path : String) (limit : UInt32) :
    Transcript × Option Machine :=
  let loading := fileProgress display .green "Loading" path
  match surroundings.contents? with
  | none => (loading ++ [⟨.error, surroundings.wording.unreadable path⟩], none)
  | some source =>
    match (Machine.withLimit limit).load source with
    | .error error =>
      let report := surroundings.wording.diagnostic source error.diagnostic
      (loading ++ fileProgress display .red "Failed" path ++ [⟨.error, report⟩], none)
    | .ok machine => (loading, some (machine.setTrace surroundings.settings.trace))

def withFile (display : Display) (surroundings : Surroundings) (path : String) (limit : UInt32)
    (body : Machine → Transcript) : Outcome :=
  match loadFile display surroundings path limit with
  | (loading, none) => ⟨loading, .failure⟩
  | (loading, some machine) => ⟨loading ++ body machine, .success⟩

def runFile (display : Display) (path : String) (machine : Machine) : Transcript :=
  let (exit, after) := machine.run
  progress display .green "Running" "loaded program" ++
    display.traceNotice machine.runTrace ++ display.listMachine .listing after ++
    display.exitNotice after exit ++ fileProgress display .green "Completed" path

def debugOpening (display : Display) : Transcript :=
  progress display .green "Debugging" "type `help` for a list of commands"

def debugFile (display : Display) (path : String) (script? : Option String) (input : ByteArray)
    (machine : Machine) : Transcript :=
  let console : Debugger.Console := { display }
  debugOpening display ++ (console.session (Debugger.Entry.list script? input) machine).1 ++
    fileProgress display .green "Completed" path

def checkFile (display : Display) (machine : Machine) : Transcript :=
  let count := machine.program.entries.length
  let noun := if count = 1 then "instruction" else "instructions"
  progress display .green "Success" s!"no errors found, {count} {noun}"

namespace Request

def execute (surroundings : Surroundings) (arguments : List String) : Request → Outcome
  | welcome => ⟨[⟨.output, welcomeText⟩], .success⟩
  | version => ⟨[⟨.output, "ali " ++ versionNumber ++ "\n"⟩], .success⟩
  | usage => ⟨[⟨.output, surroundings.wording.usage arguments⟩], .success⟩
  | run path minimal limit =>
    let display := { minimal, colour := surroundings.colour }
    withFile display surroundings path limit (runFile display path)
  | debug path script? minimal limit =>
    let display := { minimal, colour := surroundings.colour }
    withFile display surroundings path limit (debugFile display path script? surroundings.input)
  | check path =>
    let display := { colour := surroundings.colour }
    withFile display surroundings path defaultLimit (checkFile display)

end Request

def misuse (surroundings : Surroundings) (arguments : List String) : Outcome :=
  ⟨[⟨.error, surroundings.wording.misuse arguments⟩], .misuse⟩

def execute (surroundings : Surroundings) (arguments : List String) : Outcome :=
  (Request.ofArguments? arguments).elim (misuse surroundings arguments)
    (Request.execute surroundings arguments)

end Accumulator.CommandLine
