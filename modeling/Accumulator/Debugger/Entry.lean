import Accumulator.Debugger.Command
import Accumulator.Text.Pieces

namespace Accumulator.Debugger

open Text

/-- What the debugger is given to read: a piece of its script, a line of standard input, or the end
of that input. -/
inductive Entry
  | scripted (text : List Char)
  | typed (text : List Char)
  | endOfInput
deriving DecidableEq, Repr

namespace Entry

def isEmpty : Entry → Bool
  | scripted text | typed text => text.all isBlank
  | endOfInput => false

def shown : Entry → String
  | scripted text | typed text => String.ofList (trim text)
  | endOfInput => "\x1b[3m(end of input)"

def command : Entry → Except Refusal Command
  | scripted text | typed text => Command.ofText text
  | endOfInput => .ok .quit

def ofScript (script : String) : List Entry :=
  (pieces (fun c => c = ';' || c = '\n') script.toList).map scripted

/-- The lines up to the first which is not text in UTF-8. -/
def ofLines : List (List UInt8) → List Entry
  | [] => []
  | line :: lines =>
    match String.fromUTF8? ⟨line.toArray⟩ with
    | some text => typed text.toList :: ofLines lines
    | none => []

def ofInput (input : ByteArray) : List Entry :=
  ofLines (pieces (fun byte => byte = 10) input.data.toList)

def list (script? : Option String) (input : ByteArray) : List Entry :=
  script?.elim [] ofScript ++ ofInput input ++ [endOfInput]

end Entry

end Accumulator.Debugger
