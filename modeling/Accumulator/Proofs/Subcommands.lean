import Accumulator.Proofs.Arguments
import Accumulator.Proofs.Decimal
import Accumulator.Proofs.Halting
import Accumulator.Proofs.Minimal

namespace Accumulator

open Text

namespace Debugger

def Entry.Understood (entry : Entry) : Prop :=
  entry.isEmpty = true ∨ ∃ command, entry.command = .ok command

namespace Console

open Entry

variable {entry : Entry} {machine : Machine}

theorem echo_quiet (colour : Bool) (entry : Entry) : (quiet false colour).echo entry = [] := by
  cases entry <;> rfl

theorem respond_quiet (colour : Bool) (h : entry.Understood) :
    ((quiet false colour).respond entry machine).transcript =
      entry.heard.elim [] ((quiet false colour).report machine) := by
  cases he : entry.isEmpty with
  | true => simp only [respond, heard, he, if_true, Option.elim_none]
  | false =>
    obtain ⟨command, hc⟩ := h.resolve_left (by simp [he])
    have hh : entry.heard = some command := by simp [heard, he, hc, Except.toOption]
    simp only [respond_of_heard hh, hh, echo_quiet, List.nil_append, Option.elim_some]

/-- On a minimal display, a session away from a terminal shows what its commands report and nothing
else, as long as all it reads is understood. -/
theorem session_quiet (colour : Bool) {entries : List Entry}
    (h : ∀ entry ∈ entries, entry.Understood) :
    ((quiet false colour).session entries machine).1 =
      (quiet false colour).reports machine
        (Command.carriedOut machine (entries.filterMap heard)) := by
  induction entries generalizing machine with
  | nil => rfl
  | cons entry entries ih =>
    obtain ⟨hu, hr⟩ := List.forall_mem_cons.1 h
    have ha : (quiet false colour).ask entry = [] := ask_eq_nil rfl entry
    simp only [session_cons, ha, respond_quiet colour hu, List.nil_append]
    cases hh : entry.heard with
    | none =>
      simp only [List.filterMap_cons_none hh, Option.elim_none, Bool.false_eq_true, if_false, ih hr,
        List.nil_append]
    | some command =>
      simp only [List.filterMap_cons_some hh, Option.elim_some]
      by_cases hc : command.closes machine = true
      · simp only [hc, if_true, Command.carriedOut_of_closes hc, reports, List.append_nil]
      · have ho : command.closes machine = false := Bool.eq_false_iff.2 hc
        simp only [ho, Bool.false_eq_true, if_false, Command.carriedOut_of_open ho, reports, ih hr]

theorem farewell_quiet (colour : Bool) :
    (quiet false colour).farewell = ⟨.error, "Good bye.\n"⟩ := by
  simp only [farewell, quiet, Display.spoken, if_true, strip_of_plain escape_not_mem_farewell]

theorem session_all (colour : Bool) (machine : Machine) :
    ((quiet false colour).session (Entry.list (some "a") .empty) machine).1 =
      (quiet false colour).report machine .all ++
        if machine.run.2.state.halted then [] else [⟨.error, "Good bye.\n"⟩] := by
  have he : Entry.list (some "a") .empty = [.scripted ['a'], .endOfInput] := by cbv
  have hu : ∀ entry ∈ Entry.list (some "a") .empty, entry.Understood := by
    simp only [he, List.forall_mem_cons]
    exact ⟨Or.inr ⟨.all, by cbv⟩, Or.inr ⟨.quit, rfl⟩, fun _ hn => absurd hn List.not_mem_nil⟩
  have hg : (Entry.list (some "a") .empty).filterMap heard = [.all, .quit] := by cbv
  rw [session_quiet colour hu, hg]
  cases hh : machine.run.2.state.halted with
  | true =>
    have hc : Command.all.closes machine = true := hh
    simp only [Command.carriedOut_of_closes hc, reports, if_true]
  | false =>
    have hc : Command.all.closes machine = false := hh
    have hq : Command.quit.closes machine.run.2 = true := rfl
    have hf : (quiet false colour).report machine.run.2 .quit = [⟨.error, "Good bye.\n"⟩] := by
      rw [← farewell_quiet colour]
      exact print_farewell (quiet false colour)
    simp only [Command.carriedOut_of_open hc, Command.effect, Command.carriedOut_of_closes hq, reports,
      hf, Bool.false_eq_true, if_false, List.append_nil]

end Console

end Debugger

namespace CommandLine

def runLine (path : String) (limit : UInt32) : List String :=
  ["run", "--minimal", "--limit", toString limit.toNat, path]

def debugLine (script path : String) (limit : UInt32) : List String :=
  ["debug", "--minimal", "--limit", toString limit.toNat, "--command", script, path]

section Lines

variable {subcommand : Subcommand} (path : String) (limit : UInt32)

theorem not_dashed_toString (n : Nat) : isDashed (toString n).toList = false := by
  obtain ⟨c, hc, hd⟩ := head?_toString n
  obtain ⟨rest, hr⟩ := List.head?_eq_some_iff.1 hc
  simp only [hr, isDashed]
  split
  · next he =>
    obtain ⟨rfl, -⟩ := List.cons.inj he
    exact absurd hd (by decide)
  · rfl

theorem finish_quiet (hm : .minimal ∈ subcommand.switches) (hl : .limit ∈ subcommand.switches)
    (rest : List String) :
    Choices.finish {} subcommand ("--minimal" :: "--limit" :: toString limit.toNat :: rest) =
      Choices.finish { minimal := true, limit? := some limit } subcommand rest := by
  have ha : Choices.add { minimal := true } (.option .limit (toString limit.toNat)) =
      .ok { minimal := true, limit? := some limit } := by
    simp only [Choices.add, Integer.readUInt32_toString]
  calc
    _ = Choices.finish { minimal := true } subcommand
        ("--limit" :: toString limit.toNat :: rest) := Choices.finish_flag .minimal hm rfl rfl _
    _ = _ := Choices.finish_option .limit hl rfl (not_dashed_toString _) ha rest

theorem ofRest_runLine : Request.ofRest none (runLine path limit) =
    if Named path then .ok (.run path true limit) else .error (stopAt path) := by
  have hs : ∀ switch ∈ Subcommand.run.switches,
      Choices.Said { minimal := true, limit? := some limit } switch := by
    intro switch hw
    cases switch with
    | usage => trivial
    | minimal | limit => rfl
    | script => exact absurd hw (by decide)
  calc
    _ = Choices.finish {} .run ["--minimal", "--limit", toString limit.toNat, path] :=
      ofRest_of_name rfl _
    _ = Choices.finish { minimal := true, limit? := some limit } .run [path] :=
      finish_quiet limit (by decide) (by decide) _
    _ = _ := Choices.finish_last hs rfl path

theorem ofRest_debugLine {script : String} (hd : isDashed script.toList = false) :
    Request.ofRest none (debugLine script path limit) =
      if Named path then .ok (.debug path script true limit) else .error (stopAt path) := by
  have hs : ∀ switch ∈ Subcommand.debug.switches,
      Choices.Said { minimal := true, limit? := some limit, script? := script } switch := by
    intro switch hw
    cases switch with
    | usage => trivial
    | minimal | limit | script => rfl
  calc
    _ = Choices.finish {} .debug
        ["--minimal", "--limit", toString limit.toNat, "--command", script, path] :=
      ofRest_of_name rfl _
    _ = Choices.finish { minimal := true, limit? := some limit } .debug ["--command", script, path] :=
      finish_quiet limit (by decide) (by decide) _
    _ = Choices.finish { minimal := true, limit? := some limit, script? := script } .debug [path] :=
      Choices.finish_option .script (by decide) rfl hd rfl _
    _ = _ := Choices.finish_last hs rfl path

end Lines

section Files

variable {surroundings : Surroundings} {path : String} {limit : UInt32} {machine : Machine}

/-- Leave is taken of a machine that a run leaves outside of its program. -/
def leave (machine? : Option Machine) : Transcript :=
  if machine?.any fun machine => machine.run.1 = .outOfProgram then [⟨.error, "Good bye.\n"⟩] else []

theorem only_leave (machine? : Option Machine) : (leave machine?).Only .error := by
  intro chunk hc
  simp only [leave] at hc
  split at hc
  · rw [List.mem_singleton.1 hc]
  · cases hc

theorem on_error_leave (machine? : Option Machine) : (leave machine?).on .error =
    if machine?.any fun machine => machine.run.1 = .outOfProgram then "Good bye.\n" else "" := by
  simp only [leave]
  split
  · rfl
  · rfl

theorem debugFile_eq (colour : Bool) (path : String) (machine : Machine) :
    debugFile { minimal := true, colour } path (some "a") .empty machine =
      runFile { minimal := true, colour } path machine ++ leave (some machine) := by
  have hx : machine.run.2.state.halted = true ↔ ¬ machine.run.1 = .outOfProgram := by
    obtain ⟨hh, hl, ho⟩ := Machine.run_exit_iff machine
    cases he : machine.run.1 with
    | halted => simp [(hh.1 he).1]
    | limitReached => simp [(hl.1 he).1]
    | outOfProgram => simp [(ho.1 he).1]
  have hr : runFile { minimal := true, colour } path machine =
      (Debugger.Console.quiet false colour).report machine .all :=
    List.append_nil _
  have hd : debugFile { minimal := true, colour } path (some "a") .empty machine =
      ((Debugger.Console.quiet false colour).session
        (Debugger.Entry.list (some "a") .empty) machine).1 :=
    List.append_nil _
  rw [hd, hr, Debugger.Console.session_all, leave]
  simp only [hx, ite_not, Option.any_some, decide_eq_true_eq]

def loaded? (surroundings : Surroundings) (path : String) (limit : UInt32) : Option Machine :=
  (loadFile { minimal := true } surroundings path limit).2

theorem loadFile_machine (display other : Display) :
    (loadFile display surroundings path limit).2 = (loadFile other surroundings path limit).2 := by
  simp only [loadFile]
  split
  · rfl
  · split <;> rfl

theorem withFile_debugFile (colour : Bool) :
    withFile { minimal := true, colour } surroundings path limit
        (debugFile { minimal := true, colour } path (some "a") .empty) =
      let ran := withFile { minimal := true, colour } surroundings path limit
        (runFile { minimal := true, colour } path)
      ⟨ran.transcript ++ leave (loaded? surroundings path limit), ran.status⟩ := by
  simp only [loaded?, loadFile_machine { minimal := true } { minimal := true, colour }, withFile]
  cases hl : loadFile { minimal := true, colour } surroundings path limit with
  | mk loading machine? =>
    cases machine? with
    | none => simp [leave]
    | some machine => simp [debugFile_eq]

theorem ofArguments?_runLine (hp : Named path) :
    Request.ofArguments? (runLine path limit) = some (.run path true limit) := by
  rw [Request.ofArguments?, ofRest_runLine, if_pos hp]

theorem ofArguments?_debugLine (hp : Named path) :
    Request.ofArguments? (debugLine "a" path limit) = some (.debug path (some "a") true limit) := by
  rw [Request.ofArguments?, ofRest_debugLine path limit (by decide), if_pos hp]

/-- What is no path stands for the same request in both lines, and there is no file to it. -/
theorem ofArguments?_of_not_named (hp : ¬ Named path) :
    Request.ofArguments? (debugLine "a" path limit) = Request.ofArguments? (runLine path limit) := by
  rw [Request.ofArguments?, Request.ofArguments?, ofRest_runLine,
    ofRest_debugLine path limit (by decide), if_neg hp, if_neg hp]

theorem execute_debugLine (surroundings : Surroundings) (limit : UInt32) (hp : Named path) :
    let given : Surroundings := { surroundings with input := .empty }
    let ran := execute given (runLine path limit)
    execute given (debugLine "a" path limit) =
      ⟨ran.transcript ++ leave (loaded? given path limit), ran.status⟩ := by
  intro given ran
  simp only [ran, execute_of_request (ofArguments?_runLine hp),
    execute_of_request (ofArguments?_debugLine hp)]
  exact withFile_debugFile surroundings.colour

theorem status_execute {arguments other : List String}
    (h : Request.ofArguments? arguments = Request.ofArguments? other)
    (surroundings : Surroundings) :
    (execute surroundings arguments).status = (execute surroundings other).status := by
  rw [execute, execute, h]
  cases Request.ofArguments? other with
  | none => rfl
  | some request => cases request <;> rfl

/-- To run a file and to debug it with the command to run it come to the same, but that the debugger
takes leave of a program which does not halt. What stands for no file is refused by both, or both
are asked for their usage. -/
theorem debug_agrees_with_run (surroundings : Surroundings) (path : String) (limit : UInt32) :
    let given : Surroundings := { surroundings with input := .empty }
    let run := execute given (runLine path limit)
    let debug := execute given (debugLine "a" path limit)
    debug.status = run.status ∧
      (Named path →
        debug.transcript.on .output = run.transcript.on .output ∧
        debug.transcript.on .error = run.transcript.on .error ++
          if (loaded? given path limit).any fun machine => machine.run.1 = .outOfProgram
          then "Good bye.\n" else "") := by
  intro given run debug
  have ho : (leave (loaded? given path limit)).on .output = "" :=
    (only_leave _).on_eq_empty (by decide)
  by_cases hp : Named path
  · have hd : debug = ⟨run.transcript ++ leave (loaded? given path limit), run.status⟩ :=
      execute_debugLine surroundings limit hp
    simp only [hd, Transcript.on_append, ho, String.append_empty, on_error_leave, and_self,
      implies_true]
  · exact ⟨status_execute (ofArguments?_of_not_named hp) given, fun hn => absurd hn hp⟩

theorem debug_agrees_with_run_of_jump :
    let given : Surroundings := { contents? := some "JMP 200" }
    let run := execute given (runLine "f" 9)
    let debug := execute given (debugLine "a" "f" 9)
    Named "f" ∧ debug.status = run.status ∧
      debug.transcript.on .output = run.transcript.on .output ∧
      debug.transcript.on .error = run.transcript.on .error ++ "Good bye.\n" := by
  have hp : Named "f" := by decide
  let machine : Machine := { program := .ofList [some (.jmp 200)], limit := 9 }
  have hs : Program.ofSource "JMP 200" = .ok machine.program := by cbv
  have hl : loaded? { contents? := some "JMP 200" } "f" 9 = some machine := by
    simp only [loaded?, loadFile, Machine.load, hs]
    rfl
  have hr : machine.run.1 = .outOfProgram := by
    have hx : machine.step.exit? = some .outOfProgram := by decide +kernel
    rw [Machine.run_of_not_stopped (by decide +kernel), Machine.run_of_exit? hx]
  obtain ⟨hc, hn⟩ := debug_agrees_with_run { contents? := some "JMP 200" } "f" 9
  obtain ⟨ho, he⟩ := hn hp
  refine ⟨hp, hc, ho, he.trans ?_⟩
  simp only [hl, Option.any_some, hr, decide_true, if_true]

end Files

end CommandLine

end Accumulator
