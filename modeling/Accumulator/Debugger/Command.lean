import Accumulator.Text.Words

namespace Accumulator.Debugger

open Text

inductive Command
  | help
  | step
  | all
  | print
  | quit
deriving DecidableEq, Repr

inductive Refusal
  | unknown (word : String) (suggestion? : Option Command)
  | tooManyArguments (command : Command) (count : Nat)
deriving DecidableEq, Repr

namespace Command

def list : List Command := [help, step, all, print, quit]

def name : Command → String
  | help => "help"
  | step => "step"
  | all => "all"
  | print => "print"
  | quit => "quit"

def aliases : Command → List String
  | help => ["help", "h", "?"]
  | step => ["step", "s"]
  | all => ["all", "a"]
  | print => ["print", "p"]
  | quit => ["quit", "q", "exit"]

def fold (word : String) : String := String.ofList (word.toList.map Char.toLower)

def ofWord? (word : String) : Option Command :=
  list.find? fun command => fold word ∈ command.aliases

/-- The command whose name the word begins, or which begins the word. One byte is too little to go
by. -/
def suggestion? (word : String) : Option Command :=
  if word.utf8ByteSize < 2 then none
  else
    let letters := (fold word).toList
    list.find? fun command =>
      letters.isPrefixOf command.name.toList || command.name.toList.isPrefixOf letters

def ofText (text : List Char) : Except Refusal Command :=
  let (word, arguments) :=
    match words 0 text with
    | [] => ("", [])
    | word :: arguments => (word.text, arguments)
  match ofWord? word with
  | none => .error (.unknown word (suggestion? word))
  | some command =>
    if arguments.isEmpty then .ok command
    else .error (.tooManyArguments command arguments.length)

end Command

def Refusal.message : Refusal → String
  | unknown word none => s!"Not a command: `{word}`."
  | unknown word (some suggestion) =>
    let name := suggestion.name
    s!"Not a command: `{word}`.\n    Did you mean `{name}`?"
  | tooManyArguments command count =>
    let name := command.name
    s!"In command `{name}`:\n    Too many arguments. Expected 0, found {count}."

end Accumulator.Debugger
