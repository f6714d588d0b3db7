import Accumulator.Machine
import Accumulator.Text.Integer

namespace Accumulator.CommandLine

open Text

inductive Request
  | welcome
  | version
  | usage
  | run (path : String) (minimal : Bool) (limit : UInt32)
  | debug (path : String) (script? : Option String) (minimal : Bool) (limit : UInt32)
  | check (path : String)
deriving DecidableEq, Repr

inductive Switch
  | usage
  | minimal
  | limit
  | script
deriving DecidableEq, Repr

namespace Switch

def long : Switch → String
  | usage => "help"
  | minimal => "minimal"
  | limit => "limit"
  | script => "command"

def short : Switch → Char
  | usage => 'h'
  | minimal => 'm'
  | limit => 'l'
  | script => 'c'

def takesValue : Switch → Bool
  | usage | minimal => false
  | limit | script => true

end Switch

inductive Subcommand
  | run
  | debug
  | check
deriving DecidableEq, Repr

namespace Subcommand

def ofName? : String → Option Subcommand
  | "run" => some run
  | "debug" => some debug
  | "check" => some check
  | _ => none

def switches : Subcommand → List Switch
  | run => [.usage, .minimal, .limit]
  | debug => [.usage, .script, .minimal, .limit]
  | check => [.usage]

end Subcommand

inductive Item
  | flag (switch : Switch)
  | option (switch : Switch) (value : String)
  | word (text : String)
  | fault
deriving DecidableEq, Repr

/-- How an argument ends: on its own, or with an option that takes the argument after it. -/
structure Scan where
  items : List Item
  awaiting? : Option Switch := none

/-- Whether an argument cannot be a word or a value. A lone hyphen can. -/
def isDashed (argument : List Char) : Bool :=
  match argument with
  | '-' :: _ :: _ => true
  | _ => false

def scanLong (switches : List Switch) (argument : List Char) : Scan :=
  let name := String.ofList (argument.takeWhile (· != '='))
  match switches.find? fun switch => switch.long = name, argument.dropWhile (· != '=') with
  | none, _ => ⟨[.fault], none⟩
  | some switch, [] => if switch.takesValue then ⟨[], some switch⟩ else ⟨[.flag switch], none⟩
  | some switch, _ :: value =>
    if switch.takesValue then ⟨[.option switch (String.ofList value)], none⟩ else ⟨[.fault], none⟩

/-- Reads a group of letters which stood behind one hyphen. The first one that takes a value takes
the rest of the group, save for an equals sign in front. -/
def scanShort (switches : List Switch) : List Char → Scan
  | [] => ⟨[], none⟩
  | letter :: letters =>
    match switches.find? fun switch => switch.short = letter with
    | none => ⟨[.fault], none⟩
    | some switch =>
      if switch.takesValue then
        match letters with
        | [] => ⟨[], some switch⟩
        | '=' :: value | value => ⟨[.option switch (String.ofList value)], none⟩
      else
        let scan := scanShort switches letters
        ⟨.flag switch :: scan.items, scan.awaiting?⟩

def scanArgument (switches : List Switch) (argument : String) : Scan :=
  match argument.toList with
  | '-' :: '-' :: rest@(_ :: _) => scanLong switches rest
  | '-' :: rest@(_ :: _) => scanShort switches rest
  | _ => ⟨[.word argument], none⟩

/-- Reads the arguments of a subcommand, where `awaiting?` is the option that the first of them is the
value of. Behind two lone hyphens, all of them are words. -/
def scan (switches : List Switch) (awaiting? : Option Switch) : List String → List Item
  | [] => if awaiting?.isSome then [.fault] else []
  | argument :: rest =>
    match awaiting? with
    | some switch =>
      if isDashed argument.toList then [.fault]
      else .option switch argument :: scan switches none rest
    | none =>
      if argument = "--" then rest.map .word
      else
        let first := scanArgument switches argument
        first.items ++ scan switches first.awaiting? rest

structure Choices where
  path? : Option String := none
  minimal : Bool := false
  limit? : Option UInt32 := none
  script? : Option String := none

inductive Stop
  | usage
  | refused
deriving DecidableEq, Repr

namespace Choices

def add (choices : Choices) : Item → Except Stop Choices
  | .flag .usage => .error .usage
  | .flag .minimal =>
    if choices.minimal then .error .refused else .ok { choices with minimal := true }
  | .option .limit value =>
    match choices.limit?, Integer.readUInt32 value.toList with
    | none, .ok limit => .ok { choices with limit? := some limit }
    | _, _ => .error .refused
  | .option .script value =>
    if choices.script?.isSome then .error .refused
    else .ok { choices with script? := some value }
  | .word path =>
    if choices.path?.isSome || path.isEmpty then .error .refused
    else .ok { choices with path? := some path }
  | _ => .error .refused

def request (choices : Choices) (subcommand : Subcommand) : Except Stop Request :=
  let limit := choices.limit?.getD defaultLimit
  match choices.path?, subcommand with
  | none, _ => .error .refused
  | some path, .run => .ok (.run path choices.minimal limit)
  | some path, .debug => .ok (.debug path choices.script? choices.minimal limit)
  | some path, .check => .ok (.check path)

end Choices

namespace Request

def ofSubcommand (subcommand : Subcommand) (arguments : List String) : Except Stop Request := do
  let choices ← (scan subcommand.switches none arguments).foldlM Choices.add {}
  choices.request subcommand

def ofPath (path : String) : Except Stop Request :=
  if path.isEmpty then .error .refused else .ok (.run path false defaultLimit)

def ofHelp : List String → Except Stop Request
  | [] => .error .usage
  | [name] =>
    if name = "help" || (Subcommand.ofName? name).isSome then .error .usage else .error .refused
  | _ => .error .refused

/-- Reads the arguments behind a path, if there was one. A subcommand makes the path idle, though it
still has to be one. -/
def ofRest (path? : Option String) : List String → Except Stop Request
  | [] => path?.elim (.ok .welcome) ofPath
  | "--" :: rest =>
    match path?, rest with
    | none, [path] => ofPath path
    | _, [] => path?.elim (.ok .welcome) ofPath
    | _, _ => .error .refused
  | "help" :: rest => ofHelp rest
  | argument :: rest =>
    match Subcommand.ofName? argument with
    | some subcommand => do
      let request ← ofSubcommand subcommand rest
      if path? = some "" then .error .refused else .ok request
    | none =>
      if isDashed argument.toList then
        if path? = some "" then .error .refused
        else if argument = "--help" || argument.toList.take 2 = ['-', 'h'] then .error .usage
        else if argument = "--version" || argument.toList.take 2 = ['-', 'V'] then .ok .version
        else .error .refused
      else
        match path? with
        | none => ofRest (some argument) rest
        | some _ => .error .refused

def ofArguments? (arguments : List String) : Option Request :=
  match ofRest none arguments with
  | .ok request => some request
  | .error .usage => some .usage
  | .error .refused => none

def path? : Request → Option String
  | run path .. | debug path .. | check path => some path
  | welcome | version | usage => none

end Request

end Accumulator.CommandLine
