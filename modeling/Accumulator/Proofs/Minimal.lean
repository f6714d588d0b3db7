import Accumulator.CommandLine.Execution
import Accumulator.Proofs.Uncoloured

namespace Accumulator

open Text

inductive Listing
  | all
  | instructions
  | registers
  | data

def Listing.print (display : Display) (channel : Channel) (machine : Machine) :
    Listing → Transcript
  | all => display.listMachine channel machine
  | instructions => display.listInstructions channel machine
  | registers => display.listRegisters channel machine
  | data => display.listData channel machine

inductive Act
  | operate (operation : Operation)
  | print (channel : Channel) (text : String)
  | list (listing : Listing) (channel : Channel)
  | noticeExit (exit : Exit)
  | noticeLimit
  | debug (terminal : Bool) (script? : Option String) (input : ByteArray)

/-- What an act shows, and the machine after it. -/
def Act.perform (display : Display) (machine : Machine) : Act → Transcript × Machine
  | operate operation => (display.traceNotice (operation.trace machine), operation.apply machine)
  | print channel text => (display.print channel text, machine)
  | list listing channel => (listing.print display channel machine, machine)
  | noticeExit exit => (display.exitNotice machine exit, machine)
  | noticeLimit => (display.limitNotice machine, machine)
  | debug terminal script? input =>
    let console : Debugger.Console := { display, terminal }
    console.session (Debugger.Entry.list script? input) machine

def Act.performAll (display : Display) (machine : Machine) : List Act → Transcript × Machine
  | [] => ([], machine)
  | act :: acts =>
    let (shown, after) := act.perform display machine
    let (rest, last) := performAll display after acts
    (shown ++ rest, last)

namespace Act

open Transcript Display

variable {machine : Machine}

theorem perform_machine (display other : Display) (machine : Machine) (act : Act) :
    (act.perform display machine).2 = (act.perform other machine).2 := by
  cases act with
  | debug terminal script? input => exact Debugger.Console.session_machine_eq _ _ _ _
  | operate _ | print _ _ | list _ _ | noticeExit _ | noticeLimit => rfl

theorem uncoloured_perform (act : Act) (h : machine.state.NamesEndEscapes)
    (ha : (act.perform { minimal := true } machine).2.state.NamesEndEscapes) :
    Uncoloured fun colour => (act.perform { minimal := true, colour } machine).1 := by
  cases act with
  | operate operation => exact uncoloured_traceNotice _
  | print channel text => exact uncoloured_print_text channel text
  | list listing channel =>
    cases listing with
    | all => exact uncoloured_listMachine channel h
    | instructions => exact uncoloured_listInstructions channel machine
    | registers => exact uncoloured_listRegisters channel machine
    | data => exact uncoloured_listData channel h
  | noticeExit exit => exact uncoloured_exitNotice machine exit
  | noticeLimit => exact uncoloured_limitNotice machine
  | debug terminal script? input => exact Debugger.Console.uncoloured_session terminal _ ha

theorem performAll_cons (display : Display) (machine : Machine) (act : Act) (acts : List Act) :
    let after := (act.perform display machine).2
    performAll display machine (act :: acts) =
      ((act.perform display machine).1 ++ (performAll display after acts).1,
        (performAll display after acts).2) := rfl

theorem uncoloured_performAll {acts : List Act}
    (h : ∀ before, before <+: acts →
      (performAll { minimal := true } machine before).2.state.NamesEndEscapes) :
    Uncoloured fun colour => (performAll { minimal := true, colour } machine acts).1 := by
  induction acts generalizing machine with
  | nil => exact uncoloured_nil
  | cons act acts ih =>
    have hm (colour : Bool) := perform_machine { minimal := true, colour } { minimal := true } machine act
    have hn := h [] List.nil_prefix
    have ha := h [act] (List.prefix_append [act] acts)
    have hr := ih fun before hb => h (act :: before) (List.cons_prefix_cons.2 ⟨rfl, hb⟩)
    simp only [performAll_cons, hm]
    exact (uncoloured_perform act hn ha).append hr

end Act

namespace CommandLine

open Transcript Display

variable {surroundings : Surroundings} {path : String} {limit : UInt32} {machine : Machine}

theorem loadFile_of_some (h : (loadFile { minimal := true } surroundings path limit).2 = some machine)
    (colour : Bool) :
    loadFile { minimal := true, colour } { surroundings with colour } path limit =
      ([], some machine) := by
  unfold loadFile at h ⊢
  cases hc : surroundings.contents? with
  | none =>
    rw [hc] at h
    cases h
  | some source =>
    rw [hc] at h
    dsimp only at h ⊢
    cases hl : (Machine.withLimit limit).load source with
    | error error =>
      rw [hl] at h
      cases h
    | ok loaded =>
      rw [hl] at h
      exact congrArg (Prod.mk []) h

theorem withFile_of_some (h : (loadFile { minimal := true } surroundings path limit).2 = some machine)
    (colour : Bool) (body : Machine → Transcript) :
    (withFile { minimal := true, colour } { surroundings with colour } path limit body).transcript =
      body machine := by
  rw [withFile, loadFile_of_some h]
  exact List.nil_append _

theorem uncoloured_runFile (h : machine.run.2.state.NamesEndEscapes) :
    Uncoloured fun colour => runFile { minimal := true, colour } path machine := by
  have hs : Uncoloured fun colour =>
      [] ++ ({ minimal := true, colour : Display }.traceNotice machine.runTrace) ++
        ({ minimal := true, colour : Display }.listMachine .listing machine.run.2) ++
        ({ minimal := true, colour : Display }.exitNotice machine.run.2 machine.run.1) ++ [] :=
    (((uncoloured_nil.append (uncoloured_traceNotice _)).append
      (uncoloured_listMachine .listing h)).append (uncoloured_exitNotice _ _)).append uncoloured_nil
  exact hs

theorem uncoloured_debugFile (script? : Option String) (input : ByteArray)
    (h : (Debugger.Console.session { display := { minimal := true } }
      (Debugger.Entry.list script? input) machine).2.state.NamesEndEscapes) :
    Uncoloured fun colour => debugFile { minimal := true, colour } path script? input machine := by
  have hs := Debugger.Console.uncoloured_session false (Debugger.Entry.list script? input) h
  exact (uncoloured_nil.append hs).append uncoloured_nil

theorem execute_of_request {arguments : List String} {request : Request}
    (h : Request.ofArguments? arguments = some request) (surroundings : Surroundings) :
    execute surroundings arguments = request.execute surroundings arguments := by
  rw [execute, h, Option.elim_some]

/-- What a minimal display shows does not depend on whether texts are coloured, and has no escape
sequences, as long as no name of a variable leaves one open. -/
theorem minimal_hides_colour :
    (∀ (machine : Machine) (acts : List Act),
      (∀ before, before <+: acts →
        (Act.performAll { minimal := true } machine before).2.state.NamesEndEscapes) →
      let shown (colour : Bool) := (Act.performAll { minimal := true, colour } machine acts).1
      ∀ colour stream, (shown colour).on stream = (shown false).on stream ∧
        escape ∉ ((shown colour).on stream).toList) ∧
    ∀ (surroundings : Surroundings) (path : String) (limit : UInt32) (machine : Machine),
      (loadFile { minimal := true } surroundings path limit).2 = some machine →
      ∀ arguments,
        (Request.ofArguments? arguments = some (.run path true limit) ∧
            machine.run.2.state.NamesEndEscapes) ∨
          (∃ script?, Request.ofArguments? arguments = some (.debug path script? true limit) ∧
            (Debugger.Console.session { display := { minimal := true } }
              (Debugger.Entry.list script? surroundings.input) machine).2.state.NamesEndEscapes) →
        let shown (colour : Bool) := (execute { surroundings with colour } arguments).transcript
        ∀ colour stream, (shown colour).on stream = (shown false).on stream ∧
          escape ∉ ((shown colour).on stream).toList := by
  have hu {shown : Bool → Transcript} (h : Uncoloured shown) (colour : Bool) (stream : Stream) :
      (shown colour).on stream = (shown false).on stream ∧
        escape ∉ ((shown colour).on stream).toList :=
    ⟨by rw [h.same], h.escape_not_mem_on colour stream⟩
  refine ⟨fun machine acts h => hu (Act.uncoloured_performAll h), ?_⟩
  intro surroundings path limit machine hl arguments h shown
  refine hu ?_
  rcases h with ⟨ha, hn⟩ | ⟨script?, ha, hn⟩
  · have hs : shown = fun colour => runFile { minimal := true, colour } path machine := by
      funext colour
      simp only [shown, execute_of_request ha, Request.execute, withFile_of_some hl]
    rw [hs]
    exact uncoloured_runFile hn
  · have hs : shown = fun colour =>
        debugFile { minimal := true, colour } path script? surroundings.input machine := by
      funext colour
      simp only [shown, execute_of_request ha, Request.execute, withFile_of_some hl]
    rw [hs]
    exact uncoloured_debugFile script? surroundings.input hn

/-- A colour that a name of the source text starts is hidden as well. -/
theorem minimal_hides_colour_of_painted_name :
    let source := "STR \x1b[31mx\nHLT"
    let acts := [Act.operate (.load source), .operate .step, .list .data .listing]
    let listed (colour : Bool) :=
      (Act.performAll { minimal := true, colour } (.withLimit defaultLimit) acts).1
    let surroundings : Surroundings := { contents? := some source }
    let printed (colour : Bool) :=
      (execute { surroundings with colour } ["run", "-m", "f"]).transcript
    (∀ colour stream, (listed colour).on stream = (listed false).on stream ∧
      escape ∉ ((listed colour).on stream).toList) ∧
    ∀ colour stream, (printed colour).on stream = (printed false).on stream ∧
      escape ∉ ((printed colour).on stream).toList := by
  have hs : Program.ofSource "STR \x1b[31mx\nHLT" =
      .ok (.ofList [some (.str "\x1b[31mx"), some .hlt]) := by cbv
  have hl : (Machine.withLimit defaultLimit).load "STR \x1b[31mx\nHLT" =
      .ok { program := .ofList [some (.str "\x1b[31mx"), some .hlt] } := by
    rw [Machine.load, hs]
    rfl
  have hn : ∀ label ∈ (Program.ofList [some (.str "\x1b[31mx"), some .hlt]).labels,
      EndsEscapes label.toList := by decide +kernel
  have ha := Machine.allocated_load hl
  refine ⟨minimal_hides_colour.1 _ _ ?_, minimal_hides_colour.2 _ "f" defaultLimit
    { program := .ofList [some (.str "\x1b[31mx"), some .hlt] }
    ?_ _ (Or.inl ⟨by decide +kernel, ?_⟩)⟩
  · intro before hb
    have ht := (Machine.allocated_step ha).namesEndEscapes hn
    simp only [List.prefix_cons_iff, List.prefix_nil] at hb
    rcases hb with rfl | ⟨_, rfl, rfl | ⟨_, rfl, rfl | ⟨_, rfl, rfl⟩⟩⟩
    · decide
    · simp only [Act.performAll, Act.perform, Operation.apply, hl]
      exact ha.namesEndEscapes hn
    · simp only [Act.performAll, Act.perform, Operation.apply, hl]
      exact ht
    · simp only [Act.performAll, Act.perform, Operation.apply, hl]
      exact ht
  · simp only [loadFile, hl]
    rfl
  · obtain ⟨k, -, -, -, hr⟩ := Machine.run_eq_iterate
      { program := .ofList [some (.str "\x1b[31mx"), some .hlt] }
    rw [hr]
    exact (Machine.allocated_iterate ha k).namesEndEscapes hn

end CommandLine

end Accumulator
