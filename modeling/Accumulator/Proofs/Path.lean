import Accumulator.Proofs.History

namespace Accumulator.Machine

variable {machine : Machine}

/-- The machines that a run takes its steps from, one after the other. -/
def runPath (machine : Machine) : List Machine :=
  match _h : machine.exit? with
  | some _ => []
  | none => machine :: runPath machine.step
termination_by machine.remaining
decreasing_by exact remaining_step_lt _h

theorem runPath_of_stopped (h : machine.state.Stopped) : machine.runPath = [] := by
  rw [runPath]
  split
  · rfl
  · next he => exact absurd h (exit?_eq_none_iff.1 he)

theorem runPath_of_not_stopped (h : ¬ machine.state.Stopped) :
    machine.runPath = machine :: machine.step.runPath := by
  rw [runPath]
  split
  · next exit he =>
    rw [exit?_eq_none_iff.2 h] at he
    cases he
  · rfl

theorem run_of_stopped (h : machine.state.Stopped) : machine.run.2 = machine := by
  cases he : machine.exit? with
  | none => exact absurd h (exit?_eq_none_iff.1 he)
  | some exit => rw [run_of_exit? he]

theorem run_induction {P : Machine → Prop} (stopped : ∀ machine, machine.state.Stopped → P machine)
    (running : ∀ machine, ¬ machine.state.Stopped → P machine.step → P machine)
    (machine : Machine) : P machine := by
  induction machine using run.induct with
  | case1 machine exit he =>
    apply stopped machine
    by_contra hs
    rw [exit?_eq_none_iff.2 hs] at he
    cases he
  | case2 machine he ih => exact running machine (exit?_eq_none_iff.1 he) ih

theorem cycles_run (hc : machine.Countable) :
    machine.run.2.cycles.toNat = machine.cycles.toNat + machine.runPath.length := by
  induction machine using run_induction with
  | stopped machine hs =>
    rw [run_of_stopped hs, runPath_of_stopped hs]
    rfl
  | running machine hs ih =>
    have hh := State.halted_of_not_stopped hs
    have ht : machine.step.cycles.toNat = machine.cycles.toNat + 1 := by
      rw [← hc.toNat_succ hh]
      obtain ⟨hn, -⟩ | ⟨-, -, he⟩ | ⟨-, -, he⟩ := machine.step_cases
      · rw [hh] at hn
        cases hn
      · rw [he]
      · rw [he]
    rw [run_of_not_stopped hs, ih hc.step, ht, runPath_of_not_stopped hs, List.length_cons]
    omega

end Accumulator.Machine
