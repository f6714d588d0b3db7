import Accumulator.Text.Style

namespace Accumulator

open Text

inductive Stream
  | output
  | error
deriving DecidableEq, Repr

structure Chunk where
  stream : Stream
  text : String
deriving DecidableEq, Repr

abbrev Transcript := List Chunk

namespace Transcript

def on (stream : Stream) (transcript : Transcript) : String :=
  String.join ((transcript.filter (·.stream = stream)).map Chunk.text)

end Transcript

/-- What a text is for: a listing of the machine, a remark on what happens, or an aside that can be
left out. -/
inductive Channel
  | listing
  | remark
  | aside
deriving DecidableEq, Repr

/-- How texts are shown. A minimal display has no escape sequences and no asides. -/
structure Display where
  minimal : Bool := false
  colour : Bool := false
deriving DecidableEq, Repr

namespace Display

def paint (display : Display) (style : Style) (text : String) : String :=
  if display.colour then style.paint text else text

def print (display : Display) (channel : Channel) (text : String) : Transcript :=
  match channel, display.minimal with
  | .listing, false => [⟨.output, text⟩]
  | .listing, true => [⟨.output, strip text⟩]
  | .remark, false | .aside, false => [⟨.error, display.paint .blue text⟩]
  | .remark, true => [⟨.error, strip text⟩]
  | .aside, true => []

end Display

end Accumulator
