namespace Accumulator.Text

def padRight (width : Nat) (text : String) : String :=
  text.pushn ' ' (width - text.length)

def padLeft (width : Nat) (text : String) : String :=
  "".pushn ' ' (width - text.length) ++ text

/-- The character that starts an escape sequence. The first `m` after it ends the sequence. -/
def escape : Char := '\x1b'

def reset : List Char := [escape, '[', '0', 'm']

def openingOf (n : Nat) : List Char := escape :: '[' :: ((toString n).toList ++ ['m'])

/-- Puts an opening behind each place where the text ends all styles. -/
def reopenWith (opening : List Char) : List Char → List Char
  | '\x1b' :: '[' :: '0' :: 'm' :: text => reset ++ opening ++ reopenWith opening text
  | c :: text => c :: reopenWith opening text
  | [] => []

def paintWith (n : Nat) (text : String) : String :=
  String.ofList (openingOf n ++ reopenWith (openingOf n) text.toList ++ reset)

inductive Style
  | red
  | green
  | blue
  | cyan
  | bold
deriving DecidableEq, Repr

namespace Style

def number : Style → Nat
  | red => 31
  | green => 32
  | blue => 34
  | cyan => 36
  | bold => 1

def paint (style : Style) (text : String) : String := paintWith style.number text

end Style

/-- The text without its escape sequences, where `hidden` tells whether it starts inside of one. A
sequence that is not ended hides the rest of the text. -/
def visible (hidden : Bool) : List Char → List Char
  | [] => []
  | c :: text =>
    if hidden then visible (c != 'm') text
    else if c = escape then visible true text
    else c :: visible false text

def strip (text : String) : String := String.ofList (visible false text.toList)

end Accumulator.Text
