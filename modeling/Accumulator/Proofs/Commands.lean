import Accumulator.Debugger.Entry
import Accumulator.Proofs.Lines
import Accumulator.Proofs.Runs

namespace Accumulator.Debugger

open Text

def segments (script : String) : List (List Char) :=
  script.toList.splitOnP fun c => c = ';' || c = '\n'

def decoded? (line : List UInt8) : Option (List Char) :=
  (String.fromUTF8? ⟨line.toArray⟩).map String.toList

def lines (input : ByteArray) : List (List Char) :=
  ((input.data.toList.splitOn 10).takeWhile fun line => (decoded? line).isSome).filterMap decoded?

/-- The commands of a script and those of the input behind it. Blank texts are dropped, and so are
those that are no command. -/
def commandsOf (script? : Option String) (input : ByteArray) : List Command :=
  let texts := script?.elim [] segments ++ lines input
  ((texts.map trim).filter (· ≠ [])).filterMap fun text => (Command.ofText text).toOption

namespace Command

theorem ofText_congr {s t : List Char} (h : runs s = runs t) : ofText s = ofText t := by
  have hw : (words 0 s).map Word.text = (words 0 t).map Word.text := by
    rw [map_text_words, map_text_words, h]
  unfold ofText
  cases hs : words 0 s with
  | nil =>
    rw [hs, List.map_nil, eq_comm, List.map_eq_nil_iff] at hw
    rw [hw]
  | cons first rest =>
    cases ht : words 0 t with
    | nil => rw [hs, ht] at hw; cases hw
    | cons first' rest' =>
      rw [hs, ht, List.map_cons, List.map_cons, List.cons.injEq] at hw
      have hl : rest.length = rest'.length := by simpa using congrArg List.length hw.2
      simp only [hw.1, ← List.length_eq_zero_iff, List.isEmpty_iff, hl]

def inText? (text : List Char) : Option Command :=
  if text.all isBlank then none else (ofText text).toOption

theorem inText?_eq (text : List Char) :
    inText? text = if trim text = [] then none else (ofText (trim text)).toOption := by
  simp only [inText?, trim_eq_nil_iff, ofText_congr (runs_trim text)]

theorem filterMap_inText? (texts : List (List Char)) :
    ((texts.map trim).filter (· ≠ [])).filterMap (fun text => (ofText text).toOption) =
      texts.filterMap inText? := by
  induction texts with
  | nil => rfl
  | cons text texts ih =>
    rw [List.map_cons, List.filter_cons, List.filterMap_cons, inText?_eq, ← ih]
    by_cases ht : trim text = [] <;> simp [ht, List.filterMap_cons]

end Command

namespace Entry

def heard (entry : Entry) : Option Command :=
  if entry.isEmpty then none else entry.command.toOption

variable {β : Type} {f : Entry → Option β}

theorem filterMap_ofScript (hf : f (scripted []) = none) (script : String) :
    (ofScript script).filterMap f = (segments script).filterMap fun text => f (scripted text) := by
  obtain ⟨ending, he, hs⟩ := splitOnP_eq_pieces_append (fun c => c = ';' || c = '\n') script.toList
  rw [ofScript, segments, hs, List.filterMap_map, List.filterMap_append]
  have hn : ending.filterMap (fun text => f (scripted text)) = [] := by
    rcases he with rfl | rfl
    · rfl
    · exact List.filterMap_cons_none hf
  rw [hn, List.append_nil]
  rfl

theorem ofLines_eq_map (lines : List (List UInt8)) :
    ofLines lines =
      ((lines.takeWhile fun line => (decoded? line).isSome).filterMap decoded?).map typed := by
  induction lines with
  | nil => rfl
  | cons line lines ih =>
    rw [ofLines, List.takeWhile_cons]
    cases hd : String.fromUTF8? ⟨line.toArray⟩ with
    | none => simp [decoded?, hd]
    | some text =>
      have ht : decoded? line = some text.toList := by rw [decoded?, hd]; rfl
      simp [ht, ih]

theorem filterMap_ofLines_append (hf : f (typed []) = none) (lines : List (List UInt8)) :
    (ofLines (lines ++ [[]])).filterMap f = (ofLines lines).filterMap f := by
  induction lines with
  | nil => exact List.filterMap_cons_none hf
  | cons line lines ih =>
    rw [List.cons_append, ofLines, ofLines]
    split
    · rw [List.filterMap_cons, List.filterMap_cons, ih]
    · rfl

theorem filterMap_ofInput (hf : f (typed []) = none) (input : ByteArray) :
    (ofInput input).filterMap f = (lines input).filterMap fun text => f (typed text) := by
  obtain ⟨ending, he, hs⟩ := splitOnP_eq_pieces_append (· == 10) input.data.toList
  have hp : (fun byte : UInt8 => decide (byte = 10)) = (· == 10) := by
    funext byte
    exact (beq_eq_decide byte 10).symm
  have hl : (lines input).filterMap (fun text => f (typed text)) =
      (ofLines (input.data.toList.splitOn 10)).filterMap f := by
    rw [ofLines_eq_map, List.filterMap_map]
    rfl
  rw [ofInput, hp, hl, List.splitOn_eq_splitOnP, hs]
  rcases he with rfl | rfl
  · rw [List.append_nil]
  · exact (filterMap_ofLines_append hf _).symm

/-- Empty pieces apart, a session reads the segments of its script and the lines of its input. -/
theorem filterMap_list (hs : f (scripted []) = none) (ht : f (typed []) = none)
    (script? : Option String) (input : ByteArray) :
    (list script? input).filterMap f =
      (script?.elim [] segments).filterMap (fun text => f (scripted text)) ++
        (lines input).filterMap (fun text => f (typed text)) ++ [endOfInput].filterMap f := by
  rw [list, List.filterMap_append, List.filterMap_append, filterMap_ofInput ht]
  cases script? with
  | none => rfl
  | some script => simp only [Option.elim_some, filterMap_ofScript hs]

theorem filterMap_heard_list (script? : Option String) (input : ByteArray) :
    (list script? input).filterMap heard = commandsOf script? input ++ [.quit] := by
  rw [filterMap_list rfl rfl, commandsOf, Command.filterMap_inText?, List.filterMap_append]
  rfl

end Entry

end Accumulator.Debugger
