import Accumulator.Proofs.Commands
import Accumulator.Proofs.Farewell
import Accumulator.Proofs.Run

namespace Accumulator.Debugger

inductive Ending
  | quit
  | exhausted
  | halted
deriving DecidableEq, Repr

namespace Command

/-- What a command is to make of a machine: one step, a whole run, or nothing. -/
def effect (machine : Machine) : Command → Machine
  | step => machine.step
  | all => machine.run.2
  | help | print | quit => machine

/-- No command is carried out behind this one. -/
def closes (machine : Machine) (command : Command) : Bool :=
  command = .quit || (command.effect machine).state.halted

/-- The commands up to the first which quits or leaves the machine halted. -/
def carriedOut (machine : Machine) : List Command → List Command
  | [] => []
  | command :: commands =>
    if command.closes machine then [command]
    else command :: carriedOut (command.effect machine) commands

def ending (machine : Machine) : List Command → Ending
  | [] => .exhausted
  | command :: commands =>
    if command.closes machine then if command = .quit then .quit else .halted
    else ending (command.effect machine) commands

variable {machine : Machine} {command : Command}

theorem apply_eq_effect (machine : Machine) (command : Command) :
    command.apply machine = command.effect machine := by
  cases command <;> rfl

theorem carriedOut_of_closes (h : command.closes machine = true) (commands : List Command) :
    carriedOut machine (command :: commands) = [command] :=
  if_pos h

theorem carriedOut_of_open (h : command.closes machine = false) (commands : List Command) :
    carriedOut machine (command :: commands) =
      command :: carriedOut (command.effect machine) commands :=
  if_neg (Bool.eq_false_iff.1 h)

theorem ending_of_closes (h : command.closes machine = true) (commands : List Command) :
    ending machine (command :: commands) = if command = .quit then .quit else .halted :=
  if_pos h

theorem ending_of_open (h : command.closes machine = false) (commands : List Command) :
    ending machine (command :: commands) = ending (command.effect machine) commands :=
  if_neg (Bool.eq_false_iff.1 h)

theorem effect_of_halted (h : machine.state.halted = true) (command : Command) :
    command.effect machine = machine := by
  cases command with
  | step => exact Machine.step_of_halted h
  | all => rw [effect, Machine.run_of_exit? (Machine.exit?_of_halted h)]
  | help | print | quit => rfl

theorem length_carriedOut_of_halted (h : machine.state.halted = true) (commands : List Command) :
    (carriedOut machine commands).length ≤ 1 := by
  cases commands with
  | nil => exact Nat.zero_le 1
  | cons command commands =>
    have hc : command.closes machine = true := by
      rw [closes, effect_of_halted h, h, Bool.or_true]
    rw [carriedOut_of_closes hc]
    exact Nat.le_refl 1

theorem carriedOut_append_quit (machine : Machine) (commands : List Command) :
    carriedOut machine (commands ++ [quit]) =
      carriedOut machine commands ++ if ending machine commands = .exhausted then [quit] else [] := by
  induction commands generalizing machine with
  | nil => rfl
  | cons command commands ih =>
    rw [List.cons_append]
    cases hc : command.closes machine with
    | true =>
      rw [carriedOut_of_closes hc, carriedOut_of_closes hc, ending_of_closes hc]
      split <;> rfl
    | false =>
      rw [carriedOut_of_open hc, carriedOut_of_open hc, ending_of_open hc, ih, List.cons_append]

theorem ending_append_quit (machine : Machine) (commands : List Command) :
    ending machine (commands ++ [quit]) =
      if ending machine commands = .halted then .halted else .quit := by
  induction commands generalizing machine with
  | nil => rfl
  | cons command commands ih =>
    rw [List.cons_append]
    cases hc : command.closes machine with
    | true =>
      rw [ending_of_closes hc, ending_of_closes hc]
      split <;> rfl
    | false => rw [ending_of_open hc, ending_of_open hc, ih]

end Command

namespace Console

def reports (console : Console) (machine : Machine) : List Command → Transcript
  | [] => []
  | command :: commands =>
    console.report machine command ++ console.reports (command.effect machine) commands

/-- What a session on commands comes to, as far as its machine, what it lists and whether leave is
taken. -/
structure Renders (console : Console) (machine : Machine) (commands : List Command)
    (outcome : Transcript × Machine) : Prop where
  machine_eq : outcome.2 = (Command.carriedOut machine commands).foldl Command.effect machine
  output : outcome.1.on .output =
    (console.reports machine (Command.carriedOut machine commands)).on .output
  farewell : console.farewell ∈ outcome.1 ↔ Command.ending machine commands = .quit

variable {console : Console} {machine : Machine} {command : Command} {commands : List Command}
  {outcome : Transcript × Machine} {transcript : Transcript}

theorem renders_nil : console.Renders machine [] ([], machine) :=
  ⟨rfl, rfl, iff_of_false List.not_mem_nil nofun⟩

theorem Renders.idle (h : console.Renders machine commands outcome)
    (ht : console.Idle transcript) :
    console.Renders machine commands (transcript ++ outcome.1, outcome.2) where
  machine_eq := h.machine_eq
  output := by
    rw [Transcript.on_append, ht.only.on_eq_empty (by decide), String.empty_append, h.output]
  farewell := by rw [List.mem_append, or_iff_right ht.stays, h.farewell]

theorem renders_of_closes (hc : command.closes machine = true) (commands : List Command) :
    console.Renders machine (command :: commands)
      (console.report machine command, command.effect machine) where
  machine_eq := by rw [Command.carriedOut_of_closes hc]; rfl
  output := by rw [Command.carriedOut_of_closes hc, reports, reports, List.append_nil]
  farewell := by
    rw [farewell_mem_report_iff, Command.ending_of_closes hc]
    split <;> simp [*]

theorem Renders.next (hc : command.closes machine = false)
    (h : console.Renders (command.effect machine) commands outcome) :
    console.Renders machine (command :: commands)
      (console.report machine command ++ outcome.1, outcome.2) where
  machine_eq := by rw [Command.carriedOut_of_open hc, h.machine_eq]; rfl
  output := by
    rw [Command.carriedOut_of_open hc, reports, Transcript.on_append, Transcript.on_append,
      h.output]
  farewell := by
    have hq : command ≠ .quit := by
      rintro rfl
      cases hc
    rw [List.mem_append, farewell_mem_report_iff, or_iff_right hq, h.farewell,
      Command.ending_of_open hc]

theorem reports_append (console : Console) (machine : Machine) (s t : List Command) :
    console.reports machine (s ++ t) =
      console.reports machine s ++ console.reports (s.foldl Command.effect machine) t := by
  induction s generalizing machine with
  | nil => rfl
  | cons command s ih => rw [List.cons_append, reports, reports, ih, List.append_assoc]; rfl

theorem Renders.machine_eq_of_quit (h : console.Renders machine (commands ++ [.quit]) outcome) :
    outcome.2 = (Command.carriedOut machine commands).foldl Command.effect machine := by
  rw [h.machine_eq, Command.carriedOut_append_quit, List.foldl_append]
  split <;> rfl

theorem Renders.output_of_quit (h : console.Renders machine (commands ++ [.quit]) outcome) :
    outcome.1.on .output =
      (console.reports machine (Command.carriedOut machine commands)).on .output := by
  have hq (machine : Machine) : (console.reports machine [.quit]).on .output = "" := by
    have ho : (console.report machine .quit).Only .error := console.display.only_print .remark _
    rw [reports, reports, List.append_nil, ho.on_eq_empty (by decide)]
  rw [h.output, Command.carriedOut_append_quit, reports_append, Transcript.on_append]
  split
  · rw [hq, String.append_empty]
  · exact String.append_empty

theorem ask_eq_nil (h : console.terminal = false) (entry : Entry) : console.ask entry = [] := by
  cases entry <;> simp [ask, h]

theorem respond_of_not_heard (console : Console) (machine : Machine) {entry : Entry}
    (h : entry.heard = none) :
    (console.respond entry machine).machine = machine ∧
      (console.respond entry machine).finished = false ∧
      console.Idle (console.respond entry machine).transcript := by
  rw [Entry.heard] at h
  rw [respond]
  split at h
  · next he =>
    rw [if_pos he]
    exact ⟨rfl, rfl, console.idle_nil⟩
  · next he =>
    rw [if_neg he]
    cases hc : entry.command with
    | ok command => rw [hc] at h; cases h
    | error refusal =>
      exact ⟨rfl, rfl, (console.idle_echo entry).append (console.idle_refuse refusal)⟩

theorem respond_of_heard {entry : Entry} (h : entry.heard = some command) :
    console.respond entry machine =
      ⟨console.echo entry ++ console.report machine command, command.effect machine,
        command.closes machine⟩ := by
  rw [Entry.heard] at h
  rw [respond]
  split at h
  · cases h
  · next he =>
    rw [if_neg he]
    cases hc : entry.command with
    | error refusal => rw [hc] at h; cases h
    | ok given =>
      rw [hc] at h
      cases h
      dsimp only
      rw [Command.apply_eq_effect]
      rfl

theorem renders_session (console : Console) (entries : List Entry) (machine : Machine) :
    console.Renders machine (entries.filterMap Entry.heard) (console.session entries machine) := by
  induction entries generalizing machine with
  | nil => exact renders_nil
  | cons entry entries ih =>
    rw [session]
    cases hh : entry.heard with
    | none =>
      obtain ⟨hm, hf, hi⟩ := console.respond_of_not_heard machine hh
      rw [List.filterMap_cons_none hh]
      dsimp only
      rw [if_neg (Bool.eq_false_iff.1 hf), hm]
      exact (ih machine).idle ((console.idle_ask entry).append hi)
    | some command =>
      have hi := (console.idle_ask entry).append (console.idle_echo entry)
      rw [List.filterMap_cons_some hh, respond_of_heard hh]
      dsimp only
      rw [← List.append_assoc]
      cases hc : command.closes machine with
      | true => exact (renders_of_closes hc _).idle hi
      | false =>
        rw [if_neg Bool.false_ne_true, List.append_assoc]
        exact ((ih _).next hc).idle hi

theorem session_append {entries : List Entry} {machine : Machine}
    (h : Command.ending machine (entries.filterMap Entry.heard) ≠ .exhausted) (more : List Entry) :
    console.session (entries ++ more) machine = console.session entries machine := by
  induction entries generalizing machine with
  | nil => exact absurd rfl h
  | cons entry entries ih =>
    rw [List.cons_append, session, session]
    cases hh : entry.heard with
    | none =>
      rw [List.filterMap_cons_none hh] at h
      rw [(console.respond_of_not_heard machine hh).1, ih h]
    | some command =>
      rw [List.filterMap_cons_some hh] at h
      rw [respond_of_heard hh]
      dsimp only
      cases hc : command.closes machine with
      | true => rfl
      | false =>
        rw [Command.ending_of_open hc] at h
        rw [ih h]

/-- A session is a fold over the commands of its script and its input. It is over where they are,
whatever could be read behind them. -/
theorem session_folds_commands (console : Console) (script? : Option String) (input : ByteArray)
    (machine : Machine) :
    let given := commandsOf script? input
    let carriedOut := Command.carriedOut machine given
    let (transcript, last) := console.session (Entry.list script? input) machine
    (∀ more, console.session (Entry.list script? input ++ more) machine = (transcript, last)) ∧
      last = carriedOut.foldl Command.effect machine ∧
      transcript.on .output = (console.reports machine carriedOut).on .output ∧
      (∀ entry : Entry,
        entry.isEmpty = true ∨ (∃ refusal, entry.command = .error refusal) ∨
          entry.command = .ok .help ∨ entry.command = .ok .print →
        (console.respond entry machine).machine = machine) ∧
      (machine.state.halted = true → carriedOut.length ≤ 1) ∧
      (console.display.print .remark "Good bye.\n" ⊆ transcript ↔
        Command.ending machine given ≠ .halted) := by
  have hr := console.renders_session (Entry.list script? input) machine
  rw [Entry.filterMap_heard_list] at hr
  refine ⟨?_, hr.machine_eq_of_quit, hr.output_of_quit, ?_, ?_, ?_⟩
  · refine session_append ?_
    rw [Entry.filterMap_heard_list, Command.ending_append_quit]
    split <;> decide
  · rintro entry (he | ⟨refusal, he⟩ | he | he)
    · rw [respond, if_pos he]
    all_goals
      rw [respond, he]
      split <;> rfl
  · exact fun hh => Command.length_carriedOut_of_halted hh _
  · rw [print_farewell, List.cons_subset, and_iff_left (List.nil_subset _), hr.farewell,
      Command.ending_append_quit]
    split <;> simp [*]

end Console

end Accumulator.Debugger
