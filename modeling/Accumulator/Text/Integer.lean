namespace Accumulator.Text.Integer

inductive Fault
  | invalidDigit
  | tooLarge
  | tooSmall
deriving DecidableEq, Repr

namespace Fault

def message : Fault → String
  | invalidDigit => "invalid digit found in string"
  | tooLarge => "number too large to fit in target type"
  | tooSmall => "number too small to fit in target type"

end Fault

/-- Reads digits from the left onto `value`, up to the first fault. A value above `bound` stops the
reading at the digit that makes it so, whatever follows. -/
def readDigits (bound : Nat) (excess : Fault) (value : Nat) : List Char → Except Fault Nat
  | [] => .ok value
  | c :: cs =>
    if c.isDigit then
      let next := 10 * value + (c.toNat - '0'.toNat)
      if next ≤ bound then readDigits bound excess next cs else .error excess
    else .error .invalidDigit

def readMagnitude (bound : Nat) (excess : Fault) : List Char → Except Fault Nat
  | [] => .error .invalidDigit
  | digits => readDigits bound excess 0 digits

def read (lower upper : Nat) : List Char → Except Fault Int
  | '-' :: digits => (readMagnitude lower .tooSmall digits).map fun n : Nat => -(n : Int)
  | '+' :: digits => (readMagnitude upper .tooLarge digits).map fun n : Nat => (n : Int)
  | digits => (readMagnitude upper .tooLarge digits).map fun n : Nat => (n : Int)

def readInt32 (text : List Char) : Except Fault Int32 :=
  (read (Int32.size / 2) (Int32.size / 2 - 1) text).map Int32.ofInt

def readUInt32 (text : List Char) : Except Fault UInt32 :=
  (read 0 (UInt32.size - 1) text).map fun n => UInt32.ofNat n.toNat

end Accumulator.Text.Integer
