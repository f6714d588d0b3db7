import Accumulator.CommandLine.Execution

namespace Accumulator.CommandLine

def usageText : String :=
  "Usage: ali [FILE]\n" ++
  "       ali run [-m] [-l LIMIT] FILE\n" ++
  "       ali debug [-m] [-l LIMIT] [-c COMMANDS] FILE\n" ++
  "       ali check FILE\n"

def excerpt (source : String) (line : Nat) : String :=
  let numbered := (Assembly.lines source).zipIdx 1
  let near := numbered.filter fun (_, number) =>
    line ≤ number + Diagnostic.contextLines && number ≤ line + Diagnostic.contextLines
  String.join <| near.map fun (text, number) =>
    let marker := if number = line then ">" else " "
    let column := Text.padLeft 5 (toString number)
    let text := String.ofList text
    s!"{marker}{column} | {text}\n"

def lineOf (source : String) (mark : Mark) : Nat :=
  (source.toUTF8.extract 0 mark.offset).toList.count '\n'.toUInt8 + 1

def explain (source : String) (diagnostic : Diagnostic) : String :=
  let excerpts := diagnostic.marks.map fun mark => excerpt source (lineOf source mark)
  s!"Error: {diagnostic.code}\n\n{diagnostic.text}\n\n" ++ String.join excerpts ++
    s!"\nhelp: {diagnostic.help}\n"

def wording : Wording where
  usage _ := usageText
  misuse _ := usageText
  unreadable path := s!"Error: cannot read {path}\n"
  diagnostic := explain

def write (transcript : Transcript) : IO Unit := do
  for chunk in transcript do
    let stream ← match chunk.stream with
      | .output => IO.getStdout
      | .error => IO.getStderr
    stream.putStr chunk.text
    stream.flush

/-- Whether to use colours: as the environment says, or else if a terminal shows them. -/
def wantsColour (forced? refused? allowed? : Option String) (terminal : Bool) : Bool :=
  if forced?.any (· != "0") then true
  else if refused?.isSome then false
  else terminal && allowed?.all (· != "0")

def readContents? (path : String) : IO (Option String) := do
  try
    return String.fromUTF8? (← IO.FS.readBinFile path)
  catch _ => return none

partial def readAll (stream : IO.FS.Stream) (bytes : ByteArray) : IO ByteArray := do
  let block ← stream.read 65536
  if block.isEmpty then return bytes else readAll stream (bytes ++ block)

def readEntry (stream : IO.FS.Stream) : IO Debugger.Entry := do
  try
    let line ← stream.getLine
    return if line.isEmpty then .endOfInput else .typed line.toList
  catch _ => return .endOfInput

/-- A session with a user at a terminal, which starts with the entries of a script. -/
partial def converse (console : Debugger.Console) (script : List Debugger.Entry)
    (machine : Machine) : IO Unit := do
  let (entry, script) ← match script with
    | entry :: script => pure (entry, script)
    | [] =>
      write (console.ask .endOfInput)
      pure (← readEntry (← IO.getStdin), [])
  let turn := console.respond entry machine
  write turn.transcript
  unless turn.finished do converse console script turn.machine

def debugAtTerminal (surroundings : Surroundings) (path : String) (script? : Option String)
    (minimal : Bool) (limit : UInt32) : IO Status := do
  let display : Display := { minimal, colour := surroundings.colour }
  let (loading, machine?) := loadFile display surroundings path limit
  write loading
  match machine? with
  | none => return .failure
  | some machine =>
    write (debugOpening display)
    let script := script?.elim [] Debugger.Entry.ofScript
    converse { display, terminal := true } script machine
    write (fileProgress display .green "Completed" path)
    return .success

end Accumulator.CommandLine

open Accumulator CommandLine in
def main (arguments : List String) : IO UInt32 := do
  let request? := Request.ofArguments? arguments
  let input ← IO.getStdin
  let interactive ← input.isTty
  let contents? ← match request?.bind Request.path? with
    | none => pure none
    | some path => readContents? path
  let reads := contents?.isSome && !interactive && request? matches some (.debug ..)
  let surroundings : Surroundings := {
    contents?
    input := ← if reads then readAll input .empty else pure .empty
    settings := .ofVariable (← IO.getEnv Settings.traceVariable)
    colour := wantsColour (← IO.getEnv "CLICOLOR_FORCE") (← IO.getEnv "NO_COLOR")
      (← IO.getEnv "CLICOLOR") (← (← IO.getStdout).isTty)
    wording }
  let status ← match request?, interactive with
    | some (.debug path script? minimal limit), true =>
      debugAtTerminal surroundings path script? minimal limit
    | _, _ => do
      let outcome := execute surroundings arguments
      write outcome.transcript
      pure outcome.status
  return UInt32.ofNat status.code
