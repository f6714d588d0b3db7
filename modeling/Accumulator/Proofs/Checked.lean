import Accumulator.Proofs.History

namespace Accumulator

def nextCount? (count : UInt32) : Option UInt32 :=
  if count.toNat + 1 < UInt32.size then some (UInt32.ofNat (count.toNat + 1)) else none

/-- Moves the counter to the next slot, but only from a slot of instruction memory. -/
def State.advance? (state : State) : Option State :=
  let counter := state.counter.toInt
  if 0 ≤ counter ∧ counter < programSize then
    some { state with counter := Int32.ofInt (counter + 1) }
  else none

def Program.cycle? (program : Program) (state : State) : Option State :=
  match slotIndex? state.counter with
  | none => some state
  | some i =>
    match program.slots.get i with
    | none => state.advance?
    | some instruction =>
      if instruction.advances state then (instruction.execute state).advance?
      else some (instruction.execute state)

/-- A step that fails rather than count a cycle which cannot be counted. -/
def Machine.step? (machine : Machine) : Option Machine :=
  if machine.state.halted then some machine
  else
    (nextCount? machine.cycles).bind fun cycles =>
      if machine.limit ≤ cycles then
        some { machine with cycles, hitLimit := true, state := { machine.state with halted := true } }
      else (machine.program.cycle? machine.state).map fun state => { machine with cycles, state }

/-- The places that a counter can come to: the slots, the place behind the last of them, and where
the jumps of the program lead. -/
def Program.Leads (program : Program) (counter : Int32) : Prop :=
  0 ≤ counter.toInt ∧ counter.toInt ≤ programSize ∨
    ∃ i target, ∃ instruction ∈ [Instruction.jmp target, .jzs target, .jvs target],
      program.slots.get i = some instruction ∧ counter = target

theorem nextCount?_eq_some {count : UInt32} (h : count.toNat + 1 < UInt32.size) :
    nextCount? count = some (count + 1) := by
  rw [nextCount?, if_pos h, UInt32.ofNat_add, UInt32.ofNat_toNat]
  rfl

theorem State.advance?_eq_some {state : State} {i : Fin programSize}
    (h : slotIndex? state.counter = some i) : state.advance? = some state.advance := by
  have hc := toInt_of_slotIndex? h
  have hi : i.val < programSize := i.isLt
  have hs := state.advance_counter h
  rw [advance?, if_pos ⟨by omega, by omega⟩, ← hs, Int32.ofInt_toInt]
  rfl

theorem Program.cycle?_eq_some (program : Program) (state : State) :
    program.cycle? state = some (program.cycle state) := by
  cases hi : slotIndex? state.counter with
  | none => simp only [cycle?, cycle, hi]
  | some i =>
    cases he : program.slots.get i with
    | none => simp only [cycle?, cycle, hi, he, State.advance?_eq_some hi]
    | some instruction =>
      simp only [cycle?, cycle, hi, he]
      split
      · next ha =>
        rw [← Instruction.execute_counter ha] at hi
        exact State.advance?_eq_some hi
      · rfl

namespace Machine

variable {machine : Machine}

theorem step?_eq_some (hc : machine.Countable) : machine.step? = some machine.step := by
  cases hh : machine.state.halted with
  | true => rw [step?, if_pos hh, step_of_halted hh]
  | false =>
    -- the count of a running machine stays below a limit that was in force before this step
    rw [step?, if_neg (Bool.eq_false_iff.1 hh), nextCount?_eq_some (hc hh), Option.bind_some]
    split
    · next hl => rw [step_at_limit hh hl]
    · next hl => rw [step_below_limit hh hl, Program.cycle?_eq_some, Option.map_some]

end Machine

namespace Instruction

theorem execute_counter_cases (instruction : Instruction) (state : State) :
    (instruction.execute state).counter = state.counter ∨
      ∃ target, instruction ∈ [jmp target, jzs target, jvs target] ∧
        (instruction.execute state).counter = target := by
  cases instruction with
  | dec label | str label =>
    left
    simp only [execute, State.store_counter]
    rfl
  | jmp target => exact Or.inr ⟨target, by simp, rfl⟩
  | jzs target | jvs target =>
    simp only [execute]
    split
    · exact Or.inr ⟨target, by simp, rfl⟩
    · exact Or.inl rfl
  | ldi _ | lda _ | xch | add | sub | hlt => exact Or.inl rfl

end Instruction

namespace Program

variable {program : Program} {state : State}

theorem leads_zero : program.Leads 0 := Or.inl (by decide)

theorem leads_advance {i : Fin programSize} (h : slotIndex? state.counter = some i) :
    program.Leads state.advance.counter := by
  have hc := toInt_of_slotIndex? h
  have hs := state.advance_counter h
  have hi : i.val < programSize := i.isLt
  left
  omega

theorem leads_cycle (h : program.Leads state.counter) :
    program.Leads (program.cycle state).counter := by
  obtain ⟨-, hc⟩ | ⟨i, hs, ⟨-, hc⟩ | ⟨instruction, hi, ⟨ha, hc⟩ | ⟨-, hc⟩⟩⟩ :=
    program.cycle_cases state
  · rwa [hc]
  · rw [hc]
    exact leads_advance hs
  · rw [hc]
    exact leads_advance (by rwa [Instruction.execute_counter ha])
  · rw [hc]
    obtain hp | ⟨target, hm, ht⟩ := instruction.execute_counter_cases state
    · rwa [hp]
    · exact Or.inr ⟨i, target, instruction, hm, hi, ht⟩

end Program

namespace Machine

variable {machine : Machine}

theorem leads_invariant : Invariant fun machine => machine.program.Leads machine.state.counter where
  fresh _ := Program.leads_zero
  load _ h := by
    rw [load_state h]
    exact Program.leads_zero
  step {machine} h := by
    obtain ⟨-, hs⟩ | ⟨-, -, hs⟩ | ⟨-, -, hs⟩ := machine.step_cases
    · rwa [hs]
    · rwa [hs]
    · rw [hs]
      exact Program.leads_cycle h
  setLimit _ h := h
  setTrace _ h := h

/-- No step of a machine wraps a count around, and its counter is moved on from slots only. -/
theorem after_never_wraps (limit : UInt32) (operations : List Operation) (n : Nat) :
    let machine := step^[n] (after limit operations)
    (machine.state.halted = false → machine.cycles.toNat ≤ 4294967294) ∧
      machine.step? = some machine.step ∧
      (0 ≤ machine.state.counter.toInt ∧ machine.state.counter.toInt ≤ 128 ∨
        ∃ i target, ∃ instruction ∈ [Instruction.jmp target, .jzs target, .jvs target],
          machine.program.slots.get i = some instruction ∧ machine.state.counter = target) := by
  intro machine
  have hc : machine.Countable :=
    countable_invariant.iterate (countable_invariant.after limit operations) n
  have hl : machine.program.Leads machine.state.counter :=
    leads_invariant.iterate (leads_invariant.after limit operations) n
  refine ⟨fun hh => ?_, step?_eq_some hc, hl⟩
  have hb := hc hh
  omega

end Machine

end Accumulator
