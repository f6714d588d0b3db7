import Accumulator.Proofs.History

namespace Accumulator

theorem Instruction.execute_halted {instruction : Instruction} (h : instruction ≠ hlt)
    (state : State) : (instruction.execute state).halted = state.halted := by
  have hs (state : State) (address : Address) (value : Int32) :
      (state.store address value).halted = state.halted := by
    unfold State.store
    split <;> rfl
  cases instruction with
  | dec label | str label =>
    simp only [execute, hs]
    rfl
  | jzs target | jvs target =>
    simp only [execute]
    split <;> rfl
  | hlt => exact absurd rfl h
  | ldi _ | lda _ | xch | add | sub | jmp _ => rfl

namespace Program

variable {program : Program} {state : State}

theorem cycle_of_halt (h : program.fetch? state = some .hlt) :
    program.cycle state = { state with halted := true } := by
  obtain ⟨i, hc, hi⟩ := Option.bind_eq_some_iff.1 h
  rw [cycle_of_instruction hc hi]
  rfl

theorem cycle_halted (h : program.fetch? state ≠ some .hlt) :
    (program.cycle state).halted = state.halted := by
  obtain ⟨-, hc⟩ | ⟨i, hs, ⟨-, hc⟩ | ⟨instruction, hi, hx⟩⟩ := program.cycle_cases state
  · rw [hc]
  · rw [hc]
    rfl
  · have hn : instruction ≠ .hlt := by
      rintro rfl
      exact h (by rw [fetch?_of_slot hs, hi])
    obtain ⟨-, hc⟩ | ⟨-, hc⟩ := hx
    · rw [hc]
      exact Instruction.execute_halted hn state
    · rw [hc]
      exact Instruction.execute_halted hn state

theorem fetch?_of_cycle_halted (h : state.halted = false)
    (hc : (program.cycle state).halted = true) : program.fetch? state = some .hlt := by
  by_contra hn
  rw [cycle_halted hn, h] at hc
  cases hc

end Program

namespace Machine

variable {machine : Machine}

theorem fetch?_of_next? {instruction : Instruction} (h : machine.next? = some instruction) :
    machine.program.fetch? machine.state = some instruction := by
  unfold next? at h
  split at h
  · cases h
  · exact h

theorem step_of_next?_halt (h : machine.next? = some .hlt) :
    machine.step.state = { machine.state with halted := true } := by
  obtain ⟨hh, -⟩ | ⟨-, hl, -⟩ | ⟨-, -, hs⟩ := machine.step_cases
  · rw [next?_of_halted hh] at h
    cases h
  · rw [next?_at_limit hl] at h
    cases h
  · rw [hs]
    exact Program.cycle_of_halt (fetch?_of_next? h)

/-- Of the steps that lead to a halt below the limit, one executed the halt and was the last that
did anything. -/
theorem exists_halting_step {n : Nat} (h : machine.state.halted = false)
    (hh : (step^[n] machine).state.halted = true) (hl : (step^[n] machine).hitLimit = false) :
    ∃ k < n, (step^[k] machine).next? = some .hlt ∧
      (step^[k] machine).step = step^[n] machine := by
  induction n with
  | zero =>
    rw [Function.iterate_zero_apply, h] at hh
    cases hh
  | succ n ih =>
    rw [Function.iterate_succ_apply'] at hh hl ⊢
    obtain ⟨ht, hs⟩ | ⟨-, -, hs⟩ | ⟨hr, hb, hs⟩ := (step^[n] machine).step_cases
    · rw [hs] at hl ⊢
      obtain ⟨k, hk, he⟩ := ih ht hl
      exact ⟨k, hk.trans n.lt_succ_self, he⟩
    · rw [hs] at hl
      cases hl
    · rw [hs] at hh
      refine ⟨n, n.lt_succ_self, ?_, rfl⟩
      rw [next?_below_limit hr hb]
      exact Program.fetch?_of_cycle_halted hr hh

theorem hitLimit_invariant :
    Invariant fun machine => machine.hitLimit = true → machine.state.halted = true where
  fresh _ h := by cases h
  load _ hl h := by
    obtain ⟨program, -, rfl⟩ := load_eq_ok hl
    cases h
  step {machine} hi := by
    obtain ⟨-, hs⟩ | ⟨-, -, hs⟩ | ⟨hh, -, hs⟩ := machine.step_cases
    · rwa [hs]
    · rw [hs]
      exact fun _ => rfl
    · rw [hs]
      intro h
      rw [hi h] at hh
      cases hh
  setLimit _ h := h
  setTrace _ h := h

/-- What only a source text that loads can change of a machine that is halted. -/
structure Kept (machine later : Machine) : Prop where
  program : later.program = machine.program
  state : later.state = machine.state
  cycles : later.cycles = machine.cycles
  hitLimit : later.hitLimit = machine.hitLimit

theorem Kept.refl (machine : Machine) : machine.Kept machine := ⟨rfl, rfl, rfl, rfl⟩

theorem Kept.trans {later last : Machine} (h : machine.Kept later) (hl : later.Kept last) :
    machine.Kept last where
  program := hl.program.trans h.program
  state := hl.state.trans h.state
  cycles := hl.cycles.trans h.cycles
  hitLimit := hl.hitLimit.trans h.hitLimit

theorem kept_apply (h : machine.state.halted = true) (operation : Operation) :
    machine.Kept (operation.apply machine) ∨
      ∃ source program, operation = .load source ∧ Program.ofSource source = .ok program ∧
        (operation.apply machine).state = {} := by
  cases operation with
  | load source =>
    change machine.Kept ((machine.load source).toOption.getD machine) ∨ _
    cases hl : machine.load source with
    | error error => exact Or.inl (Kept.refl machine)
    | ok loaded =>
      obtain ⟨program, hp, -⟩ := load_eq_ok hl
      refine Or.inr ⟨source, program, rfl, hp, ?_⟩
      rw [Operation.apply, hl]
      exact load_state hl
  | step =>
    rw [Operation.apply, step_of_halted h]
    exact Or.inl (Kept.refl machine)
  | run =>
    rw [Operation.apply, run_of_exit? (exit?_of_halted h)]
    exact Or.inl (Kept.refl machine)
  | setLimit limit | setTrace trace => exact Or.inl ⟨rfl, rfl, rfl, rfl⟩

theorem kept_foldl (h : machine.state.halted = true) {operations : List Operation}
    (hf : ∀ source, .load source ∈ operations → ∃ error, Program.ofSource source = .error error) :
    machine.Kept (operations.foldl Operation.apply machine) := by
  induction operations generalizing machine with
  | nil => exact Kept.refl machine
  | cons operation operations ih =>
    obtain hk | ⟨source, program, rfl, ho, -⟩ := kept_apply h operation
    · have hh : (operation.apply machine).state.halted = true := by rw [hk.state, h]
      exact hk.trans (ih hh fun source hm => hf source (List.mem_cons_of_mem operation hm))
    · obtain ⟨error, he⟩ := hf source List.mem_cons_self
      rw [ho] at he
      cases he

theorem apply_eq_iterate {operation : Operation} (h : machine.state.halted = false)
    (hh : (operation.apply machine).state.halted = true) :
    ∃ n, operation.apply machine = step^[n] machine := by
  cases operation with
  | load source =>
    cases hl : machine.load source with
    | error error =>
      rw [Operation.apply, hl] at hh
      exact absurd (h.symm.trans hh) Bool.false_ne_true
    | ok loaded =>
      rw [Operation.apply, hl] at hh
      change loaded.state.halted = true at hh
      rw [load_state hl] at hh
      cases hh
  | step => exact ⟨1, rfl⟩
  | run =>
    obtain ⟨k, -, -, -, hr⟩ := run_eq_iterate machine
    exact ⟨k, hr⟩
  | setLimit limit | setTrace trace => exact absurd (h.symm.trans hh) Bool.false_ne_true

/-- One of the operations ended with the step that executed the halt which the machine stands on. -/
def HaltExecuted (limit : UInt32) (operations : List Operation) : Prop :=
  ∃ before operation later, operations = before ++ operation :: later ∧ ∃ n,
    let earlier := step^[n] (after limit before)
    let machine := after limit operations
    earlier.next? = some .hlt ∧ earlier.step = operation.apply (after limit before) ∧
      machine.program = earlier.program ∧ machine.state = earlier.step.state

variable {limit : UInt32} {operations : List Operation} {operation : Operation}

theorem after_concat : after limit (operations ++ [operation]) =
    operation.apply (after limit operations) :=
  List.foldl_append

theorem HaltExecuted.fetch? (h : HaltExecuted limit operations) :
    (after limit operations).program.fetch? (after limit operations).state = some .hlt := by
  obtain ⟨before, operation, later, -, n, hn, -, hp, hs⟩ := h
  rw [hp, hs, step_of_next?_halt hn]
  exact fetch?_of_next? hn

theorem HaltExecuted.concat (h : HaltExecuted limit operations)
    (hk : (after limit operations).Kept (after limit (operations ++ [operation]))) :
    HaltExecuted limit (operations ++ [operation]) := by
  obtain ⟨before, first, later, rfl, n, hn, ha, hp, hs⟩ := h
  refine ⟨before, first, later ++ [operation], ?_, n, hn, ha, hk.program.trans hp, hk.state.trans hs⟩
  rw [List.append_assoc, List.cons_append]

theorem haltExecuted_concat (h : (after limit operations).state.halted = false)
    (hh : (after limit (operations ++ [operation])).state.halted = true)
    (hl : (after limit (operations ++ [operation])).hitLimit = false) :
    HaltExecuted limit (operations ++ [operation]) := by
  rw [after_concat] at hh hl
  obtain ⟨n, hn⟩ := apply_eq_iterate h hh
  rw [hn] at hh hl
  obtain ⟨k, -, hx, hs⟩ := exists_halting_step h hh hl
  refine ⟨operations, operation, [], rfl, k, hx, hs.trans hn.symm, ?_, ?_⟩
  · rw [after_concat, hn, step_iterate_program, step_iterate_program]
  · rw [after_concat, hn, hs]

theorem haltExecuted_of_halted (h : (after limit operations).state.halted = true)
    (hl : (after limit operations).hitLimit = false) : HaltExecuted limit operations := by
  -- the last operation halted the machine, or it found it halted and kept it, or it loaded a program
  induction operations using List.reverseRecOn with
  | nil => cases h
  | append_singleton operations operation ih =>
    cases hh : (after limit operations).state.halted with
    | false => exact haltExecuted_concat hh h hl
    | true =>
      obtain hk | ⟨source, program, -, -, hs⟩ := kept_apply hh operation
      · rw [← after_concat] at hk
        exact (ih hh (hk.hitLimit ▸ hl)).concat hk
      · rw [after_concat, hs] at h
        cases h

theorem run_exit_iff (machine : Machine) :
    (machine.run.1 = .halted ↔
        machine.run.2.state.halted = true ∧ machine.run.2.hitLimit = false) ∧
      (machine.run.1 = .limitReached ↔
        machine.run.2.state.halted = true ∧ machine.run.2.hitLimit = true) ∧
      (machine.run.1 = .outOfProgram ↔
        machine.run.2.state.halted = false ∧ machine.run.2.state.Outside) := by
  obtain ⟨k, hs, -, hx, hr⟩ := run_eq_iterate machine
  rw [← hr] at hs hx
  cases hh : machine.run.2.state.halted with
  | true =>
    rw [exit?_of_halted hh, Option.some.injEq] at hx
    rw [← hx]
    cases machine.run.2.hitLimit <;> simp
  | false =>
    have ho : machine.run.2.state.Outside := hs.resolve_left (by simp [hh])
    rw [exit?_of_outside hh ho, Option.some.injEq] at hx
    rw [← hx]
    simp [ho]

/-- A machine that is halted says rightly whether the limit or the program halted it, and a run says
rightly why it ended. -/
theorem after_stops_truthfully (limit : UInt32) (operations : List Operation) :
    let machine := after limit operations
    let exit := machine.run.1
    let last := machine.run.2
    (machine.hitLimit = true → machine.state.halted = true) ∧
      (machine.state.halted = true → machine.hitLimit = false →
        ∃ i : Fin programSize, machine.state.counter.toInt = i.val ∧
          machine.program.slots.get i = some .hlt) ∧
      (machine.state.halted = true → ∀ later,
        (∀ source, .load source ∈ later → ∃ error, Program.ofSource source = .error error) →
        machine.Kept (after limit (operations ++ later))) ∧
      (exit = .halted → last.program.fetch? last.state = some .hlt ∧
        HaltExecuted limit (operations ++ [.run])) ∧
      (exit = .limitReached ↔ last.state.halted = true ∧ last.hitLimit = true) ∧
      (exit = .outOfProgram ↔ last.state.halted = false ∧ last.state.Outside) := by
  intro machine exit last
  obtain ⟨hx, hl, ho⟩ := run_exit_iff machine
  refine ⟨hitLimit_invariant.after limit operations, ?_, ?_, ?_, hl, ho⟩
  · intro hh hb
    have hf := (haltExecuted_of_halted hh hb).fetch?
    obtain ⟨i, hc, hi⟩ := Option.bind_eq_some_iff.1 hf
    exact ⟨i, toInt_of_slotIndex? hc, hi⟩
  · intro hh later hf
    rw [after, List.foldl_append]
    exact kept_foldl hh hf
  · intro he
    obtain ⟨hh, hb⟩ := hx.1 he
    have hr : after limit (operations ++ [.run]) = last := after_concat
    have ht : HaltExecuted limit (operations ++ [.run]) :=
      haltExecuted_of_halted (hr ▸ hh) (hr ▸ hb)
    exact ⟨hr ▸ ht.fetch?, ht⟩

end Machine

end Accumulator
