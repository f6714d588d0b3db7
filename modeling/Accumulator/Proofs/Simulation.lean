import Accumulator.Proofs.Bindings
import Accumulator.Proofs.Count

namespace Accumulator

def State.named (state : State) (cycles : Nat) (hitLimit : Bool) : NamedMachine where
  accumulator := state.accumulator.toInt
  dataRegister := state.dataRegister.toInt
  counter := state.counter.toInt
  zero := state.zero
  overflow := state.overflow
  halted := state.halted
  hitLimit := hitLimit
  cycles := cycles
  bindings := state.bindings

def Machine.named (machine : Machine) : NamedMachine :=
  machine.state.named machine.cycles.toNat machine.hitLimit

theorem toInt_ofInt_eq_residue (n : Int) : (Int32.ofInt n).toInt = NamedMachine.residue n := by
  rw [Int32.toInt_ofInt, NamedMachine.residue, Int.bmod_def, show Int32.size = 2 ^ 32 from rfl]
  split <;> omega

namespace State

variable {state : State} {cycles : Nat} {hitLimit : Bool}

theorem advance_named {i : Fin programSize} (h : slotIndex? state.counter = some i) :
    state.advance.named cycles hitLimit = (state.named cycles hitLimit).advance := by
  simp only [named, state.advance_counter h, NamedMachine.advance]
  rfl

theorem setResult_named (result : Int) :
    (state.setResult result).named cycles hitLimit =
      (state.named cycles hitLimit).setResult result := by
  have hz : (Int32.ofInt result == 0) = decide (NamedMachine.residue result = 0) := by
    rw [← toInt_ofInt_eq_residue, Bool.eq_iff_iff, beq_iff_eq, decide_eq_true_iff,
      ← Int32.toInt_inj]
    rfl
  simp only [named, setResult, NamedMachine.setResult, toInt_ofInt_eq_residue, hz]
  rfl

end State

namespace Allocated

variable {program : Program} {state : State} {cycles : Nat} {hitLimit : Bool}

theorem store_named (h : Allocated program state) {label : String} (hl : label ∈ program.labels)
    (value : Int32) :
    ((state.intern label).2.store (state.intern label).1 value).named cycles hitLimit =
      { state.named cycles hitLimit with
        bindings := (state.bindings.declare label).assign label value.toInt } := by
  obtain ⟨i, hi, ha⟩ := h.intern_place hl
  rw [State.store_of_dataIndex? _ ha, State.named, State.bindings_set _ hi, h.bindings_intern hl]
  rfl

theorem load_named (h : Allocated program state) {label : String} (hl : label ∈ program.labels) :
    ((Instruction.lda label).execute state).named cycles hitLimit =
      { state.named cycles hitLimit with
        bindings := state.bindings.declare label
        accumulator := ((state.bindings.declare label).lookup label).getD 0 } := by
  obtain ⟨i, hi, ha⟩ := h.intern_place hl
  have hv := (h.intern hl).lookup_of_label hi
  rw [h.bindings_intern hl] at hv
  have hb : ((Instruction.lda label).execute state).bindings = state.bindings.declare label :=
    h.bindings_intern hl
  have hd : (state.intern label).2.dataAt? (state.intern label).1 =
      some ((state.intern label).2.data.get i) := by
    rw [State.dataAt?, ha, Option.map_some]
  have hw : ((Instruction.lda label).execute state).accumulator =
      (state.intern label).2.data.get i := by
    simp only [Instruction.execute, hd, Option.getD_some]
  rw [State.named, hb, hw, hv, Option.getD_some]
  rfl

theorem execute_named_of_advances (h : Allocated program state) {instruction : Instruction}
    (hm : ∀ label, instruction.label? = some label → label ∈ program.labels)
    (ha : instruction.advances state = true) :
    ((instruction.execute state).named cycles hitLimit).advance =
      (state.named cycles hitLimit).execute instruction := by
  cases instruction with
  | dec label => exact congrArg NamedMachine.advance (h.store_named (hm label rfl) 0)
  | str label =>
    exact congrArg NamedMachine.advance (h.store_named (hm label rfl) state.accumulator)
  | lda label => exact congrArg NamedMachine.advance (h.load_named (hm label rfl))
  | add => exact congrArg NamedMachine.advance (State.setResult_named _)
  | sub => exact congrArg NamedMachine.advance (State.setResult_named _)
  | jzs target =>
    rw [Instruction.advances_jzs, Bool.not_eq_true'] at ha
    simp only [Instruction.execute, NamedMachine.execute, NamedMachine.branch, State.named, ha,
      Bool.false_eq_true, if_false]
  | jvs target =>
    rw [Instruction.advances_jvs, Bool.not_eq_true'] at ha
    simp only [Instruction.execute, NamedMachine.execute, NamedMachine.branch, State.named, ha,
      Bool.false_eq_true, if_false]
  | jmp target | hlt => cases ha
  | ldi value | xch => rfl

theorem execute_named_of_not_advances {instruction : Instruction}
    (ha : instruction.advances state = false) :
    (instruction.execute state).named cycles hitLimit =
      (state.named cycles hitLimit).execute instruction := by
  cases instruction with
  | jmp target | hlt => rfl
  | jzs target =>
    rw [Instruction.advances_jzs, Bool.not_eq_false'] at ha
    simp only [Instruction.execute, NamedMachine.execute, NamedMachine.branch, State.named, ha,
      if_true]
    rfl
  | jvs target =>
    rw [Instruction.advances_jvs, Bool.not_eq_false'] at ha
    simp only [Instruction.execute, NamedMachine.execute, NamedMachine.branch, State.named, ha,
      if_true]
    rfl
  | dec _ | ldi _ | lda _ | str _ | xch | add | sub => cases ha

/-- A cycle and the forgetting of the places of the variables can be done in any order. -/
theorem cycle_named (h : Allocated program state) :
    (program.cycle state).named cycles hitLimit =
      (state.named cycles hitLimit).cycle program := by
  cases hc : slotIndex? state.counter with
  | none =>
    have ho : (state.named cycles hitLimit).counter < 0 ∨
        127 < (state.named cycles hitLimit).counter :=
      (slotIndex?_eq_none_iff.1 hc).imp_right Int.lt_of_add_one_le
    rw [Program.cycle_of_outside hc, NamedMachine.cycle, if_pos ho]
  | some i =>
    have hi : (state.named cycles hitLimit).counter = i.val := toInt_of_slotIndex? hc
    rw [NamedMachine.cycle_of_slot hi]
    cases hs : program.slots.get i with
    | none => rw [Program.cycle_of_empty hc hs, State.advance_named hc, Option.elim_none]
    | some instruction =>
      rw [Program.cycle_of_instruction hc hs, Option.elim_some]
      cases ha : instruction.advances state with
      | true =>
        rw [if_pos rfl, State.advance_named ((Instruction.execute_counter ha).symm ▸ hc)]
        exact h.execute_named_of_advances (fun label => Program.mem_labels hs) ha
      | false => exact execute_named_of_not_advances ha

end Allocated

namespace Machine

variable {machine : Machine}

theorem step_named (ha : Allocated machine.program machine.state) (hc : machine.Countable) :
    machine.step.named = machine.named.step machine.program machine.limit.toNat := by
  obtain ⟨hh, hs⟩ | ⟨hh, hl, hs⟩ | ⟨hh, hl, hs⟩ := machine.step_cases
  · have hn : machine.named.halted = true := hh
    rw [hs, NamedMachine.step, if_pos hn]
  · have hn : machine.named.halted = false := hh
    have hr : machine.limit.toNat ≤ machine.named.cycles + 1 := (hc.limit_le_iff hh).1 hl
    rw [hs, NamedMachine.step, if_neg (Bool.eq_false_iff.1 hn), if_pos hr, Machine.named,
      hc.toNat_succ hh]
    rfl
  · have hn : machine.named.halted = false := hh
    have hr : ¬ machine.limit.toNat ≤ machine.named.cycles + 1 := mt (hc.limit_le_iff hh).2 hl
    rw [hs, NamedMachine.step, if_neg (Bool.eq_false_iff.1 hn), if_neg hr, Machine.named,
      hc.toNat_succ hh]
    exact ha.cycle_named

theorem step_iterate_named (ha : Allocated machine.program machine.state) (hc : machine.Countable)
    (n : Nat) :
    (step^[n] machine).named =
      (NamedMachine.step machine.program machine.limit.toNat)^[n] machine.named := by
  induction n with
  | zero => rfl
  | succ n ih =>
    have hb : Allocated (step^[n] machine).program (step^[n] machine).state := by
      rw [step_iterate_program]
      exact allocated_iterate ha n
    rw [Function.iterate_succ_apply', Function.iterate_succ_apply', step_named hb (hc.iterate n),
      step_iterate_program, step_iterate_limit, ih]

theorem named_load {start : Machine} {source : String} (h : start.load source = .ok machine) :
    machine.named = {} := by
  obtain ⟨program, -, rfl⟩ := load_eq_ok h
  rfl

/-- A loaded program runs as it does on the machine that has variables in the place of addresses. -/
theorem load_simulates_named {start : Machine} {source : String}
    (h : start.load source = .ok machine) (n : Nat) :
    let concrete := step^[n] machine
    let named := (NamedMachine.step machine.program start.limit.toNat)^[n] {}
    concrete.state.accumulator.toInt = named.accumulator ∧
      concrete.state.dataRegister.toInt = named.dataRegister ∧
      concrete.state.counter.toInt = named.counter ∧
      concrete.state.zero = named.zero ∧
      concrete.state.overflow = named.overflow ∧
      concrete.state.halted = named.halted ∧
      concrete.hitLimit = named.hitLimit ∧
      concrete.cycles.toNat = named.cycles ∧
      (∀ label, (concrete.state.valueOf? label).map Int32.toInt = named.bindings.lookup label) ∧
      (∀ label, concrete.state.valueOf? label = none ↔ ¬ machine.Mentions n label) ∧
      concrete.state.dataEntries.map
          (fun entry => (entry.address.toNat, entry.label?, entry.value.toInt)) =
        named.bindings.mapIdx fun i v => (dataStart + i, some v.1, v.2) := by
  intro concrete named
  have ha : Allocated machine.program concrete.state := allocated_iterate (allocated_load h) n
  have hn : concrete.named = named := by
    have hs := step_iterate_named (allocated_load h) (Countable.load h) n
    rwa [named_load h, load_limit h] at hs
  have hb : concrete.state.bindings = named.bindings := congrArg NamedMachine.bindings hn
  refine ⟨congrArg NamedMachine.accumulator hn, congrArg NamedMachine.dataRegister hn,
    congrArg NamedMachine.counter hn, congrArg NamedMachine.zero hn,
    congrArg NamedMachine.overflow hn, congrArg NamedMachine.halted hn,
    congrArg NamedMachine.hitLimit hn, congrArg NamedMachine.cycles hn, ?_, ?_, ?_⟩
  · intro label
    rw [ha.valueOf?_eq_lookup, hb]
  · intro label
    rw [ha.valueOf?_eq_none_iff, mem_labels_iterate, load_state h, or_iff_right (by simp)]
  · rw [ha.dataEntries_eq_mapIdx, hb]

/-- Variables get their places when the run comes to them, and not as they stand in the text. -/
theorem load_simulates_named_in_run_order :
    ∃ machine, (withLimit 9).load "JMP 2\nSTR x\nLDA y\nLDI -5\nJMP 1" = .ok machine ∧
      (step^[6] machine).state.accumulator.toInt = 0 ∧
      (step^[6] machine).state.dataEntries.map
          (fun entry => (entry.address.toNat, entry.label?, entry.value.toInt)) =
        [(128, some "y", 0), (129, some "x", -5)] := by
  have hp : Program.ofSource "JMP 2\nSTR x\nLDA y\nLDI -5\nJMP 1" = .ok (Program.ofList
      [some (.jmp 2), some (.str "x"), some (.lda "y"), some (.ldi (-5)), some (.jmp 1)]) := by
    cbv
  have hl := load_of_ofSource (withLimit 9) hp
  obtain ⟨hacc, -, -, -, -, -, -, -, -, -, hd⟩ := load_simulates_named hl 6
  exact ⟨_, hl, hacc.trans (by decide +kernel), hd.trans (by decide +kernel)⟩

end Machine

end Accumulator
