import Accumulator.Proofs.Path
import Accumulator.Proofs.Replay

namespace Accumulator

/-- The two states differ in the counter and in being halted, if at all. -/
def State.Alike (state other : State) : Prop :=
  state = { other with counter := state.counter, halted := state.halted }

namespace State.Alike

variable {state other : State}

theorem execute (h : state.Alike other) (instruction : Instruction) :
    (instruction.execute state).Alike (instruction.execute other) := by
  rw [State.Alike] at h
  generalize state.counter = counter at h
  generalize state.halted = halted at h
  subst h
  cases instruction with
  | dec label | str label =>
    simp only [Instruction.execute, State.intern, State.store]
    split <;> rfl
  | jzs target | jvs target =>
    simp only [Instruction.execute]
    split <;> rfl
  | ldi _ | lda _ | xch | add | sub | jmp _ | hlt => rfl

theorem advance (h : state.Alike other) : state.advance.Alike other := by
  rw [State.Alike] at h
  rw [h]
  rfl

theorem halt (h : state.Alike other) : State.Alike { state with halted := true } other := by
  rw [State.Alike] at h
  rw [h]
  rfl

theorem cycle (h : state.Alike other) (program : Program) :
    (program.cycle state).Alike ((program.fetch? state).elim other (·.execute other)) := by
  obtain ⟨hi, hc⟩ | ⟨i, hi, ⟨hs, hc⟩ | ⟨instruction, hs, ⟨-, hc⟩ | ⟨-, hc⟩⟩⟩ :=
    program.cycle_cases state
  · rw [hc, Program.fetch?, hi]
    exact h
  · rw [hc, Program.fetch?_of_slot hi, hs]
    exact h.advance
  · rw [hc, Program.fetch?_of_slot hi, hs]
    exact (h.execute instruction).advance
  · rw [hc, Program.fetch?_of_slot hi, hs]
    exact h.execute instruction

end State.Alike

namespace Operation

def continues : Operation → Bool
  | step | run | setLimit _ => true
  | load _ | setTrace _ => false

/-- The machines from which an operation takes its steps, one after the other. -/
def path (machine : Machine) : Operation → List Machine
  | step => [machine]
  | run => machine.runPath
  | load _ | setLimit _ | setTrace _ => []

def exits (machine : Machine) : Operation → List Exit
  | run => [machine.run.1]
  | load _ | step | setLimit _ | setTrace _ => []

/-- What is observed of operations that are applied one after the other. -/
def collect {α : Type} (observe : Machine → Operation → List α) (machine : Machine) :
    List Operation → List α
  | [] => []
  | operation :: later =>
    observe machine operation ++ collect observe (operation.apply machine) later

theorem apply_trace {operation : Operation} (h : operation.continues = true) (machine : Machine) :
    (operation.apply machine).trace = machine.trace := by
  refine (machine.apply_settings operation).2 fun hs => ?_
  cases operation with
  | setTrace trace => cases h
  | load _ | step | run | setLimit _ => cases hs

end Operation

theorem Program.cycle_halted_iff {program : Program} {state : State} (hh : state.halted = false) :
    (program.cycle state).halted = true ↔ program.fetch? state = some .hlt := by
  constructor
  · exact fetch?_of_cycle_halted hh
  · intro hf
    rw [cycle_of_halt hf]

namespace Machine

open Operation

variable {machine : Machine} {entry : TraceEntry} {log : List TraceEntry}

/-- The next cycle of the machine executes the instruction in the slot that its counter is at. -/
structure Executes (machine : Machine) (entry : TraceEntry) : Prop where
  running : machine.state.halted = false
  below : machine.cycles.toNat + 1 < machine.limit.toNat
  counter : entry.counter = machine.state.counter
  slot : ∃ i : Fin programSize, machine.state.counter.toInt = i.val ∧
    machine.program.slots.get i = some entry.instruction

/-- The log has an entry for each of the machines whose next cycle executes an instruction, in their
order, and none for the others. -/
inductive Logs : List Machine → List TraceEntry → Prop
  | nil : Logs [] []
  | executed {machine machines entry log} :
    machine.Executes entry → Logs machines log → Logs (machine :: machines) (entry :: log)
  | silent {machine machines log} :
    (∀ entry, ¬ machine.Executes entry) → Logs machines log → Logs (machine :: machines) log

theorem Logs.append {machines others : List Machine} {more : List TraceEntry}
    (h : Logs machines log) (ho : Logs others more) : Logs (machines ++ others) (log ++ more) := by
  induction h with
  | nil => exact ho
  | executed he _ ih => exact .executed he ih
  | silent hn _ ih => exact .silent hn ih

theorem running_of_next? {instruction : Instruction} (h : machine.next? = some instruction) :
    machine.state.halted = false ∧ ¬ machine.limit ≤ machine.cycles + 1 := by
  obtain ⟨hh, -⟩ | ⟨-, hl, -⟩ | ⟨hh, hl, -⟩ := machine.step_cases
  · rw [next?_of_halted hh] at h
    cases h
  · rw [next?_at_limit hl] at h
    cases h
  · exact ⟨hh, hl⟩

theorem executes_iff (hc : machine.Countable) :
    machine.Executes entry ↔
      machine.next? = some entry.instruction ∧ entry.counter = machine.state.counter := by
  constructor
  · rintro ⟨hh, hb, hp, i, hi, hs⟩
    have hl : ¬ machine.limit ≤ machine.cycles + 1 := by
      rw [hc.limit_le_iff hh]
      omega
    rw [next?_below_limit hh hl, Program.fetch?_of_slot (slotIndex?_eq_some_iff.2 hi)]
    exact ⟨hs, hp⟩
  · rintro ⟨hn, hp⟩
    obtain ⟨hh, hl⟩ := running_of_next? hn
    rw [hc.limit_le_iff hh] at hl
    obtain ⟨i, hi, hs⟩ := Option.bind_eq_some_iff.1 (fetch?_of_next? hn)
    exact ⟨hh, Nat.lt_of_not_le hl, hp, i, toInt_of_slotIndex? hi, hs⟩

theorem stepTrace_of_next? (ht : machine.trace = true) {instruction : Instruction}
    (hn : machine.next? = some instruction) :
    machine.stepTrace = [⟨machine.state.counter, instruction⟩] := by
  rw [stepTrace, if_pos ht, hn]
  rfl

theorem stepTrace_of_next?_none (hn : machine.next? = none) : machine.stepTrace = [] := by
  rw [stepTrace, hn]
  split <;> rfl

theorem logs_step (ht : machine.trace = true) (hc : machine.Countable) :
    Logs [machine] machine.stepTrace := by
  cases hn : machine.next? with
  | none =>
    rw [stepTrace_of_next?_none hn]
    refine .silent (fun entry he => ?_) .nil
    rw [((executes_iff hc).1 he).1] at hn
    cases hn
  | some instruction =>
    rw [stepTrace_of_next? ht hn]
    exact .executed ((executes_iff hc).2 ⟨hn, rfl⟩) .nil

theorem toList_traceOnto (machine : Machine) (entries : Array TraceEntry) :
    (traceOnto entries machine).toList = entries.toList ++ machine.runPath.flatMap stepTrace := by
  induction machine using run_induction generalizing entries with
  | stopped machine hs =>
    rw [runPath_of_stopped hs, traceOnto]
    split
    · simp
    · next he => exact absurd hs (exit?_eq_none_iff.1 he)
  | running machine hs ih =>
    rw [runPath_of_not_stopped hs, traceOnto]
    split
    · next exit he =>
      rw [exit?_eq_none_iff.2 hs] at he
      cases he
    · simp [ih]

theorem runTrace_eq (ht : machine.trace = true) :
    machine.runTrace = machine.runPath.flatMap stepTrace := by
  rw [runTrace, if_pos ht, toList_traceOnto]
  rfl

theorem runTrace_of_stopped (ht : machine.trace = true) (hs : machine.state.Stopped) :
    machine.runTrace = [] := by
  rw [runTrace_eq ht, runPath_of_stopped hs]
  rfl

theorem step_trace : machine.step.trace = machine.trace := step_settings.2.2

theorem runTrace_of_not_stopped (ht : machine.trace = true) (hs : ¬ machine.state.Stopped) :
    machine.runTrace = machine.stepTrace ++ machine.step.runTrace := by
  rw [runTrace_eq ht, runTrace_eq (step_trace.trans ht), runPath_of_not_stopped hs,
    List.flatMap_cons]

theorem logs_run (ht : machine.trace = true) (hc : machine.Countable) :
    Logs machine.runPath machine.runTrace := by
  induction machine using run_induction with
  | stopped machine hs =>
    rw [runPath_of_stopped hs, runTrace_of_stopped ht hs]
    exact .nil
  | running machine hs ih =>
    rw [runPath_of_not_stopped hs, runTrace_of_not_stopped ht hs]
    exact (logs_step ht hc).append (ih (step_trace.trans ht) hc.step)

def stateOf (log : List TraceEntry) : State :=
  log.foldl (fun state entry => entry.instruction.execute state) {}

theorem stateOf_concat (log : List TraceEntry) (entry : TraceEntry) :
    stateOf (log ++ [entry]) = entry.instruction.execute (stateOf log) :=
  List.foldl_append

theorem alike_step {other : State} (h : machine.state.Alike other) :
    machine.step.state.Alike (machine.next?.elim other (·.execute other)) := by
  obtain ⟨hh, hs⟩ | ⟨-, hl, hs⟩ | ⟨hh, hl, hs⟩ := machine.step_cases
  · rw [hs, next?_of_halted hh]
    exact h
  · rw [hs, next?_at_limit hl]
    exact h.halt
  · rw [hs, next?_below_limit hh hl]
    exact h.cycle machine.program

theorem step_halted_iff (hi : machine.hitLimit = true → machine.state.halted = true) :
    machine.step.state.halted = true ∧ machine.step.hitLimit = false ↔
      machine.next? = some .hlt ∨ machine.state.halted = true ∧ machine.hitLimit = false := by
  obtain ⟨hh, hs⟩ | ⟨hh, hl, hs⟩ | ⟨hh, hl, hs⟩ := machine.step_cases
  · simp [hs, next?_of_halted hh]
  · simp [hs, next?_at_limit hl, hh]
  · have hb : machine.hitLimit = false := by
      rw [hh] at hi
      exact Bool.eq_false_iff.2 (mt hi Bool.false_ne_true)
    rw [hs, next?_below_limit hh hl, ← Program.cycle_halted_iff hh]
    simp [hb, hh]

/-- The log tells how the machine came to its registers, flags and memory, and whether it halted. -/
structure Recorded (log : List TraceEntry) (machine : Machine) : Prop where
  replayed : machine.state.Alike (stateOf log)
  limited : machine.hitLimit = true → machine.state.halted = true
  halted : machine.state.halted = true ∧ machine.hitLimit = false ↔
    ∃ entry, log.getLast? = some entry ∧ entry.instruction = .hlt

namespace Recorded

theorem load {start : Machine} {source : String} (h : start.load source = .ok machine) :
    Recorded [] machine := by
  obtain ⟨program, -, rfl⟩ := load_eq_ok h
  refine ⟨rfl, fun hl => ?_, ?_⟩
  · cases hl
  · simp

theorem step (h : Recorded log machine) (ht : machine.trace = true) :
    Recorded (log ++ machine.stepTrace) machine.step := by
  have hr := alike_step h.replayed
  have hi := step_halted_iff h.limited
  have hl := hitLimit_invariant.step h.limited
  cases hn : machine.next? with
  | none =>
    rw [hn] at hr hi
    rw [stepTrace_of_next?_none hn, List.append_nil]
    refine ⟨hr, hl, ?_⟩
    rw [hi, ← h.halted]
    simp
  | some instruction =>
    rw [hn] at hr hi
    rw [stepTrace_of_next? ht hn]
    refine ⟨?_, hl, ?_⟩
    · rw [stateOf_concat]
      exact hr
    · rw [hi, (running_of_next? hn).1]
      simp

theorem run (h : Recorded log machine) (ht : machine.trace = true) :
    Recorded (log ++ machine.runTrace) machine.run.2 := by
  induction machine using run_induction generalizing log with
  | stopped machine hs =>
    rw [runTrace_of_stopped ht hs, List.append_nil, run_of_stopped hs]
    exact h
  | running machine hs ih =>
    rw [runTrace_of_not_stopped ht hs, ← List.append_assoc, run_of_not_stopped hs]
    exact ih (h.step ht) (step_trace.trans ht)

end Recorded

section Operations

variable {operation : Operation} {operations : List Operation}

theorem logs_trace (ht : machine.trace = true) (hc : machine.Countable) (operation : Operation) :
    Logs (operation.path machine) (operation.trace machine) := by
  cases operation with
  | step => exact logs_step ht hc
  | run => exact logs_run ht hc
  | load _ | setLimit _ | setTrace _ => exact .nil

theorem Recorded.apply (h : Recorded log machine) (ht : machine.trace = true)
    (ho : operation.continues = true) :
    Recorded (log ++ operation.trace machine) (operation.apply machine) := by
  cases operation with
  | step => exact h.step ht
  | run => exact h.run ht
  | setLimit limit =>
    rw [Operation.trace, List.append_nil]
    exact ⟨h.replayed, h.limited, h.halted⟩
  | load _ | setTrace _ => cases ho

theorem logs_collect (ht : machine.trace = true) (hc : machine.Countable)
    (ho : ∀ operation ∈ operations, operation.continues = true) :
    Logs (collect path machine operations) (collect Operation.trace machine operations) := by
  induction operations generalizing machine with
  | nil => exact .nil
  | cons operation operations ih =>
    obtain ⟨hf, hr⟩ := List.forall_mem_cons.1 ho
    have ha := ih ((apply_trace hf machine).trans ht) (countable_invariant.apply hc operation) hr
    exact (logs_trace ht hc operation).append ha

theorem Recorded.foldl (h : Recorded log machine) (ht : machine.trace = true)
    (ho : ∀ operation ∈ operations, operation.continues = true) :
    Recorded (log ++ collect Operation.trace machine operations)
      (operations.foldl Operation.apply machine) := by
  induction operations generalizing log machine with
  | nil =>
    rw [collect, List.append_nil]
    exact h
  | cons operation operations ih =>
    obtain ⟨hf, hr⟩ := List.forall_mem_cons.1 ho
    rw [collect, ← List.append_assoc]
    exact ih (h.apply ht hf) ((apply_trace hf machine).trans ht) hr

end Operations

section Untraced

variable (machine : Machine) (trace : Bool)

theorem step_setTrace : (machine.setTrace trace).step = machine.step.setTrace trace := by
  obtain ⟨hh, hs⟩ | ⟨hh, hl, hs⟩ | ⟨hh, hl, hs⟩ := machine.step_cases
  · have ht : (machine.setTrace trace).state.halted = true := hh
    rw [hs, step_of_halted ht]
  · have ht : (machine.setTrace trace).state.halted = false := hh
    rw [hs, step_at_limit ht hl]
    rfl
  · have ht : (machine.setTrace trace).state.halted = false := hh
    rw [hs, step_below_limit ht hl]
    rfl

theorem run_setTrace :
    (machine.setTrace trace).run = (machine.run.1, machine.run.2.setTrace trace) := by
  induction machine using run.induct with
  | case1 machine exit he =>
    have hx : (machine.setTrace trace).exit? = some exit := he
    rw [run_of_exit? hx, run_of_exit? he]
  | case2 machine he ih =>
    have hs := exit?_eq_none_iff.1 he
    have hx : ¬ (machine.setTrace trace).state.Stopped := hs
    rw [run_of_not_stopped hx, run_of_not_stopped hs, step_setTrace, ih]

theorem runPath_setTrace :
    (machine.setTrace trace).runPath = machine.runPath.map (·.setTrace trace) := by
  induction machine using run_induction with
  | stopped machine hs =>
    have hx : (machine.setTrace trace).state.Stopped := hs
    rw [runPath_of_stopped hx, runPath_of_stopped hs]
    rfl
  | running machine hs ih =>
    have hx : ¬ (machine.setTrace trace).state.Stopped := hs
    rw [runPath_of_not_stopped hx, runPath_of_not_stopped hs, step_setTrace, ih]
    rfl

theorem apply_setTrace {operation : Operation} (h : operation.continues = true) :
    operation.apply (machine.setTrace trace) = (operation.apply machine).setTrace trace := by
  cases operation with
  | step => exact step_setTrace machine trace
  | run => exact congrArg Prod.snd (run_setTrace machine trace)
  | setLimit limit => rfl
  | load _ | setTrace _ => cases h

theorem path_setTrace (operation : Operation) :
    operation.path (machine.setTrace trace) = (operation.path machine).map (·.setTrace trace) := by
  cases operation with
  | run => exact runPath_setTrace machine trace
  | load _ | step | setLimit _ | setTrace _ => rfl

theorem exits_setTrace (operation : Operation) :
    operation.exits (machine.setTrace trace) = operation.exits machine := by
  cases operation with
  | run => rw [Operation.exits, run_setTrace]; rfl
  | load _ | step | setLimit _ | setTrace _ => rfl

variable {operations : List Operation}

theorem foldl_setTrace (ho : ∀ operation ∈ operations, operation.continues = true) :
    operations.foldl Operation.apply (machine.setTrace trace) =
      (operations.foldl Operation.apply machine).setTrace trace := by
  induction operations generalizing machine with
  | nil => rfl
  | cons operation operations ih =>
    obtain ⟨hf, hr⟩ := List.forall_mem_cons.1 ho
    rw [List.foldl_cons, apply_setTrace machine trace hf, ih _ hr]
    rfl

theorem collect_setTrace {α : Type} {observe : Machine → Operation → List α} {f : α → α}
    (h : ∀ machine operation,
      observe (machine.setTrace trace) operation = (observe machine operation).map f)
    (ho : ∀ operation ∈ operations, operation.continues = true) :
    collect observe (machine.setTrace trace) operations =
      (collect observe machine operations).map f := by
  induction operations generalizing machine with
  | nil => rfl
  | cons operation operations ih =>
    obtain ⟨hf, hr⟩ := List.forall_mem_cons.1 ho
    rw [collect, apply_setTrace machine trace hf, h, ih _ hr, collect, List.map_append]

end Untraced

/-- The trace since a program was loaded tells all that its instructions did. To trace the machine
changes nothing else of it. -/
theorem trace_logs_execution {start loaded : Machine} {source : String}
    (h : start.load source = .ok loaded) {operations : List Operation}
    (ho : ∀ operation ∈ operations, operation.continues = true) :
    let traced := loaded.setTrace true
    let silent := loaded.setTrace false
    let log := collect Operation.trace traced operations
    let last := operations.foldl Operation.apply traced
    Logs (collect path traced operations) log ∧
      last.state =
        { stateOf log with counter := last.state.counter, halted := last.state.halted } ∧
      (last.state.halted = true ∧ last.hitLimit = false ↔
        ∃ entry, log.getLast? = some entry ∧ entry.instruction = .hlt) ∧
      collect path silent operations =
        (collect path traced operations).map (·.setTrace false) ∧
      collect exits silent operations = collect exits traced operations ∧
      operations.foldl Operation.apply silent = last.setTrace false := by
  intro traced silent log last
  have hc : traced.Countable := countable_invariant.setTrace true (Countable.load h)
  have hb : Recorded [] traced := by
    obtain ⟨hr, hl, hh⟩ := Recorded.load h
    exact ⟨hr, hl, hh⟩
  obtain ⟨hr, -, hh⟩ := hb.foldl rfl ho
  have hp : collect path silent operations = (collect path traced operations).map _ :=
    collect_setTrace traced false (path_setTrace · false) ho
  have hx : collect exits silent operations = (collect exits traced operations).map id :=
    collect_setTrace traced false (fun machine operation =>
      (exits_setTrace machine false operation).trans (List.map_id _).symm) ho
  rw [List.map_id] at hx
  exact ⟨logs_collect rfl hc ho, hr, hh, hp, hx, foldl_setTrace traced false ho⟩

theorem trace_logs_execution_past_empty_slot : ∃ loaded,
    (withLimit 3).load "LDI 2\n\nSTR x\nHLT" = .ok loaded ∧
      (∀ operation ∈ [Operation.step, .setLimit 9, .run, .step], operation.continues = true) ∧
      let traced := loaded.setTrace true
      let operations := [Operation.step, .setLimit 9, .run, .step]
      let log : List TraceEntry := [⟨0, .ldi 2⟩, ⟨2, .str "x"⟩, ⟨3, .hlt⟩]
      let last := operations.foldl Operation.apply traced
      collect Operation.trace traced operations = log ∧ Logs (collect path traced operations) log ∧
        last.state =
          { stateOf log with counter := last.state.counter, halted := last.state.halted } ∧
        last.state.halted = true ∧ last.hitLimit = false := by
  have hp : Program.ofSource "LDI 2\n\nSTR x\nHLT" = .ok (Program.ofList
      [some (.ldi 2), none, some (.str "x"), some .hlt]) := by
    cbv
  have hl := load_of_ofSource (withLimit 3) hp
  have ho : ∀ operation ∈ [Operation.step, .setLimit 9, .run, .step],
      operation.continues = true := by
    decide
  obtain ⟨hm, hr, hh, -⟩ := trace_logs_execution hl ho
  refine ⟨_, hl, ho, ?_⟩
  intro traced operations log last
  have hlog : collect Operation.trace traced operations = log := by
    decide +kernel
  rw [hlog] at hm hr hh
  exact ⟨hlog, hm, hr, hh.2 (by simp [log])⟩

end Machine

end Accumulator
