namespace Accumulator

structure Settings where
  trace : Bool
deriving DecidableEq, Repr

namespace Settings

def traceVariable : String := "ALI_TRACE"

def ofVariable (value? : Option String) : Settings := ⟨value? = some "1"⟩

end Settings

/-- Settings which are made once, before they are used. -/
abbrev SettingsCell := Option Settings

namespace SettingsCell

inductive Misuse
  | madeAgain
  | notMade
deriving DecidableEq, Repr

def Misuse.message : Misuse → String
  | madeAgain => "tried to initialize environment state multiple times"
  | notMade => "tried to access environment state before initialization"

def make (cell : SettingsCell) (settings : Settings) : Except Misuse SettingsCell :=
  match cell with
  | none => .ok (some settings)
  | some _ => .error .madeAgain

def get (cell : SettingsCell) : Except Misuse Settings :=
  match cell with
  | none => .error .notMade
  | some settings => .ok settings

end SettingsCell

end Accumulator
