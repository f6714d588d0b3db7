import Accumulator.Machine
import Mathlib

namespace Accumulator

def Instruction.label? (instruction : Instruction) : Option String :=
  match instruction.operand? with
  | some (.symbol label) => some label
  | _ => none

theorem Instruction.label?_eq_some_iff {instruction : Instruction} {label : String} :
    instruction.label? = some label ↔ instruction ∈ [dec label, lda label, str label] := by
  cases instruction <;> simp [label?, operand?]

theorem slotIndex?_eq_none_iff {counter : Int32} :
    slotIndex? counter = none ↔ counter.toInt < 0 ∨ programSize ≤ counter.toInt := by
  unfold slotIndex?
  split
  · next h => exact iff_of_false (by simp) (by omega)
  · next h => exact iff_of_true rfl (by omega)

theorem toInt_of_slotIndex? {counter : Int32} {i : Fin programSize}
    (h : slotIndex? counter = some i) : counter.toInt = i.val := by
  unfold slotIndex? at h
  split at h
  · next hc =>
    cases h
    exact (Int.toNat_of_nonneg hc.1).symm
  · cases h

theorem slotIndex?_eq_some_iff {counter : Int32} {i : Fin programSize} :
    slotIndex? counter = some i ↔ counter.toInt = i.val := by
  refine ⟨toInt_of_slotIndex?, fun h => ?_⟩
  have hi : i.val < programSize := i.isLt
  rw [slotIndex?, dif_pos ⟨by omega, by omega⟩]
  simp only [h, Int.toNat_natCast]

namespace State

variable (state : State)

theorem store_of_dataIndex? {address : Address} {i : Fin dataSize}
    (h : dataIndex? address = some i) (value : Int32) :
    state.store address value = { state with data := state.data.set i value i.isLt } := by
  simp only [store, h]

@[simp] theorem store_symbols (address : Address) (value : Int32) :
    (state.store address value).symbols = state.symbols := by
  unfold store
  split <;> rfl

@[simp] theorem store_counter (address : Address) (value : Int32) :
    (state.store address value).counter = state.counter := by
  unfold store
  split <;> rfl

theorem advance_counter {i : Fin programSize} (h : slotIndex? state.counter = some i) :
    state.advance.counter.toInt = state.counter.toInt + 1 := by
  have hc := toInt_of_slotIndex? h
  have hi : i.val < 128 := i.isLt
  change (state.counter + 1).toInt = _
  rw [Int32.toInt_add, Int32.toInt_one, Int.bmod_eq_of_le] <;> omega

end State

namespace Instruction

theorem execute_symbols (instruction : Instruction) (state : State) :
    (instruction.execute state).symbols =
      instruction.label?.elim state.symbols fun label => (state.symbols.intern label).2 := by
  cases instruction with
  | dec label | lda label | str label => simp [execute, label?, operand?, State.intern]
  | jzs target | jvs target =>
    simp only [execute, label?, operand?, Option.elim_none]
    split <;> rfl
  | ldi _ | xch | add | sub | jmp _ | hlt => rfl

theorem execute_data {instruction : Instruction} (h : instruction.label? = none) (state : State) :
    (instruction.execute state).data = state.data := by
  cases instruction with
  | dec label | lda label | str label => simp [label?, operand?] at h
  | jzs target | jvs target =>
    simp only [execute]
    split <;> rfl
  | ldi _ | xch | add | sub | jmp _ | hlt => rfl

theorem advances_jzs (target : Int32) (state : State) :
    (jzs target).advances state = !state.zero := rfl

theorem advances_jvs (target : Int32) (state : State) :
    (jvs target).advances state = !state.overflow := rfl

theorem execute_counter {instruction : Instruction} {state : State}
    (h : instruction.advances state = true) :
    (instruction.execute state).counter = state.counter := by
  cases instruction with
  | dec label | str label =>
    simp only [execute, State.store_counter]
    rfl
  | jzs target =>
    rw [advances_jzs, Bool.not_eq_true'] at h
    simp only [execute, h, Bool.false_eq_true, if_false]
  | jvs target =>
    rw [advances_jvs, Bool.not_eq_true'] at h
    simp only [execute, h, Bool.false_eq_true, if_false]
  | jmp target | hlt => cases h
  | ldi _ | lda _ | xch | add | sub => rfl

end Instruction

namespace Program

variable {program : Program} {state : State}

theorem cycle_of_outside (h : slotIndex? state.counter = none) : program.cycle state = state := by
  simp only [cycle, h]

theorem cycle_of_empty {i : Fin programSize} (h : slotIndex? state.counter = some i)
    (he : program.slots.get i = none) : program.cycle state = state.advance := by
  simp only [cycle, h, he]

theorem cycle_of_instruction {i : Fin programSize} {instruction : Instruction}
    (h : slotIndex? state.counter = some i) (hi : program.slots.get i = some instruction) :
    program.cycle state =
      if instruction.advances state then (instruction.execute state).advance
      else instruction.execute state := by
  simp only [cycle, h, hi]

theorem fetch?_of_slot {i : Fin programSize} (h : slotIndex? state.counter = some i) :
    program.fetch? state = program.slots.get i := by
  rw [fetch?, h, Option.bind_some]

/-- All that a cycle can do. -/
theorem cycle_cases (program : Program) (state : State) :
    (slotIndex? state.counter = none ∧ program.cycle state = state) ∨
    ∃ i, slotIndex? state.counter = some i ∧
      ((program.slots.get i = none ∧ program.cycle state = state.advance) ∨
      ∃ instruction, program.slots.get i = some instruction ∧
        ((instruction.advances state = true ∧
          program.cycle state = (instruction.execute state).advance) ∨
        (instruction.advances state = false ∧
          program.cycle state = instruction.execute state))) := by
  cases hc : slotIndex? state.counter with
  | none => exact Or.inl ⟨rfl, cycle_of_outside hc⟩
  | some i =>
    refine Or.inr ⟨i, rfl, ?_⟩
    cases hi : program.slots.get i with
    | none => exact Or.inl ⟨rfl, cycle_of_empty hc hi⟩
    | some instruction =>
      refine Or.inr ⟨instruction, rfl, ?_⟩
      rw [cycle_of_instruction hc hi]
      cases instruction.advances state with
      | true => exact Or.inl ⟨rfl, if_pos rfl⟩
      | false => exact Or.inr ⟨rfl, if_neg Bool.false_ne_true⟩

theorem cycle_memory :
    (program.cycle state).symbols =
        (program.fetch? state).elim state.symbols (fun i => (i.execute state).symbols) ∧
      (program.cycle state).data =
        (program.fetch? state).elim state.data (fun i => (i.execute state).data) := by
  unfold cycle fetch?
  cases slotIndex? state.counter with
  | none => exact ⟨rfl, rfl⟩
  | some i =>
    simp only [Option.bind_some]
    cases program.slots.get i with
    | none => exact ⟨rfl, rfl⟩
    | some instruction =>
      simp only [Option.elim_some]
      split <;> exact ⟨rfl, rfl⟩

end Program

namespace Machine

variable {machine : Machine}

theorem load_of_ofSource (start : Machine) {source : String} {program : Program}
    (h : Program.ofSource source = .ok program) :
    start.load source =
      .ok { start with program, state := {}, cycles := 0, hitLimit := false } := by
  rw [load, h]
  rfl

theorem load_eq_ok {start : Machine} {source : String} (h : start.load source = .ok machine) :
    ∃ program, Program.ofSource source = .ok program ∧
      machine = { start with program, state := {}, cycles := 0, hitLimit := false } := by
  unfold load at h
  cases hp : Program.ofSource source with
  | error e => rw [hp] at h; cases h
  | ok program => rw [hp] at h; cases h; exact ⟨program, rfl, rfl⟩

theorem load_state {start : Machine} {source : String} (h : start.load source = .ok machine) :
    machine.state = {} := by
  obtain ⟨program, -, rfl⟩ := load_eq_ok h
  rfl

theorem load_limit {start : Machine} {source : String} (h : start.load source = .ok machine) :
    machine.limit = start.limit := by
  obtain ⟨program, -, rfl⟩ := load_eq_ok h
  rfl

theorem step_of_halted (h : machine.state.halted = true) : machine.step = machine := by
  rw [step, if_pos h]

theorem step_at_limit (h : machine.state.halted = false) (hl : machine.limit ≤ machine.cycles + 1) :
    machine.step =
      { machine with
        cycles := machine.cycles + 1
        hitLimit := true
        state := { machine.state with halted := true } } := by
  rw [step, if_neg (Bool.eq_false_iff.1 h), if_pos hl]

theorem step_below_limit (h : machine.state.halted = false)
    (hl : ¬ machine.limit ≤ machine.cycles + 1) :
    machine.step =
      { machine with
        cycles := machine.cycles + 1
        state := machine.program.cycle machine.state } := by
  rw [step, if_neg (Bool.eq_false_iff.1 h), if_neg hl]

/-- All that a step can do. -/
theorem step_cases (machine : Machine) :
    (machine.state.halted = true ∧ machine.step = machine) ∨
    (machine.state.halted = false ∧ machine.limit ≤ machine.cycles + 1 ∧
      machine.step =
        { machine with
          cycles := machine.cycles + 1
          hitLimit := true
          state := { machine.state with halted := true } }) ∨
    (machine.state.halted = false ∧ ¬ machine.limit ≤ machine.cycles + 1 ∧
      machine.step =
        { machine with
          cycles := machine.cycles + 1
          state := machine.program.cycle machine.state }) := by
  cases hh : machine.state.halted with
  | true => exact Or.inl ⟨rfl, step_of_halted hh⟩
  | false =>
    by_cases hl : machine.limit ≤ machine.cycles + 1
    · exact Or.inr (Or.inl ⟨rfl, hl, step_at_limit hh hl⟩)
    · exact Or.inr (Or.inr ⟨rfl, hl, step_below_limit hh hl⟩)

theorem step_settings :
    machine.step.program = machine.program ∧ machine.step.limit = machine.limit ∧
      machine.step.trace = machine.trace := by
  obtain ⟨-, hs⟩ | ⟨-, -, hs⟩ | ⟨-, -, hs⟩ := machine.step_cases
  all_goals
    rw [hs]
    exact ⟨rfl, rfl, rfl⟩

@[simp] theorem step_program : machine.step.program = machine.program := step_settings.1

@[simp] theorem step_limit : machine.step.limit = machine.limit := step_settings.2.1

@[simp] theorem step_iterate_program (n : Nat) : (step^[n] machine).program = machine.program := by
  induction n with
  | zero => rfl
  | succ n ih => rw [Function.iterate_succ_apply', step_program, ih]

@[simp] theorem step_iterate_limit (n : Nat) : (step^[n] machine).limit = machine.limit := by
  induction n with
  | zero => rfl
  | succ n ih => rw [Function.iterate_succ_apply', step_limit, ih]

theorem next?_of_halted (h : machine.state.halted = true) : machine.next? = none := by
  simp [next?, h]

theorem next?_at_limit (hl : machine.limit ≤ machine.cycles + 1) : machine.next? = none := by
  simp [next?, hl]

theorem next?_below_limit (h : machine.state.halted = false)
    (hl : ¬ machine.limit ≤ machine.cycles + 1) :
    machine.next? = machine.program.fetch? machine.state := by
  simp [next?, h, hl]

theorem step_memory :
    machine.step.state.symbols = machine.next?.elim machine.state.symbols
        (fun i => (i.execute machine.state).symbols) ∧
      machine.step.state.data = machine.next?.elim machine.state.data
        (fun i => (i.execute machine.state).data) := by
  obtain ⟨hh, hs⟩ | ⟨-, hl, hs⟩ | ⟨hh, hl, hs⟩ := machine.step_cases
  · rw [hs, next?_of_halted hh]
    exact ⟨rfl, rfl⟩
  · rw [hs, next?_at_limit hl]
    exact ⟨rfl, rfl⟩
  · rw [hs, next?_below_limit hh hl]
    exact Program.cycle_memory

end Machine

end Accumulator
