import Accumulator.Proofs.Run

namespace Accumulator

inductive Operation
  | load (source : String)
  | step
  | run
  | setLimit (limit : UInt32)
  | setTrace (trace : Bool)

def Operation.apply (machine : Machine) : Operation → Machine
  | load source => (machine.load source).toOption.getD machine
  | step => machine.step
  | run => machine.run.2
  | setLimit limit => machine.setLimit limit
  | setTrace trace => machine.setTrace trace

def Operation.trace (machine : Machine) : Operation → List Machine.TraceEntry
  | step => machine.stepTrace
  | run => machine.runTrace
  | load _ | setLimit _ | setTrace _ => []

namespace Machine

/-- What a fresh machine becomes under a sequence of operations. -/
def after (limit : UInt32) (operations : List Operation) : Machine :=
  operations.foldl Operation.apply (withLimit limit)

/-- A property that fresh and loaded machines have and that no operation takes away. -/
structure Invariant (P : Machine → Prop) : Prop where
  fresh : ∀ limit, P (withLimit limit)
  load : ∀ {start machine source}, P start → start.load source = .ok machine → P machine
  step : ∀ {machine}, P machine → P machine.step
  setLimit : ∀ {machine} limit, P machine → P (machine.setLimit limit)
  setTrace : ∀ {machine} trace, P machine → P (machine.setTrace trace)

namespace Invariant

variable {P : Machine → Prop}

theorem iterate (hP : Invariant P) {machine : Machine} (h : P machine) (n : Nat) :
    P (Machine.step^[n] machine) := by
  induction n with
  | zero => exact h
  | succ n ih =>
    rw [Function.iterate_succ_apply']
    exact hP.step ih

theorem apply (hP : Invariant P) {machine : Machine} (h : P machine) (operation : Operation) :
    P (operation.apply machine) := by
  cases operation with
  | load source =>
    change P ((machine.load source).toOption.getD machine)
    cases hl : machine.load source with
    | error e => exact h
    | ok loaded => exact hP.load h hl
  | step => exact hP.step h
  | run =>
    obtain ⟨k, -, -, -, hr⟩ := run_eq_iterate machine
    change P machine.run.2
    rw [hr]
    exact hP.iterate h k
  | setLimit limit => exact hP.setLimit limit h
  | setTrace trace => exact hP.setTrace trace h

theorem after (hP : Invariant P) (limit : UInt32) (operations : List Operation) :
    P (Machine.after limit operations) := by
  induction operations using List.reverseRecOn with
  | nil => exact hP.fresh limit
  | append_singleton operations operation ih =>
    rw [Machine.after, List.foldl_append]
    exact hP.apply ih operation

end Invariant

theorem countable_invariant : Invariant Countable where
  fresh _ := Countable.of_cycles_eq_zero rfl
  load _ h := Countable.load h
  step h := h.step
  setLimit _ h := h
  setTrace _ h := h

/-- A run ends, and it is nothing but steps up to the first machine that is stopped. -/
theorem run_after_terminates (limit : UInt32) (operations : List Operation) :
    let machine := after limit operations
    (∃ k ≤ max (machine.limit.toNat - machine.cycles.toNat) 1,
      (step^[k] machine).state.Stopped ∧ (∀ j < k, ¬ (step^[j] machine).state.Stopped) ∧
        (step^[k] machine).exit? = some machine.run.1 ∧ machine.run.2 = step^[k] machine) ∧
      (∀ n, (∀ j < n, ¬ ((step^[j] machine).state.halted = false ∧
          (step^[j] machine).state.Outside)) → (step^[n] machine).run = machine.run) ∧
      machine.run.2.run = (machine.run.1, machine.run.2) := by
  intro machine
  have hc : machine.Countable := countable_invariant.after limit operations
  exact ⟨run_eq_iterate_within hc, fun n hn => run_step_iterate hn, run_run machine⟩

end Machine

end Accumulator
