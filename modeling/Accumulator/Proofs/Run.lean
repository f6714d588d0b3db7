import Accumulator.Proofs.Count

namespace Accumulator

namespace State

def Outside (state : State) : Prop :=
  ¬ (0 ≤ state.counter.toInt ∧ state.counter.toInt < programSize)

/-- A state that a run does not go on from. -/
def Stopped (state : State) : Prop := state.halted = true ∨ state.Outside

instance (state : State) : Decidable state.Outside := inferInstanceAs (Decidable (¬ _))

instance (state : State) : Decidable state.Stopped := inferInstanceAs (Decidable (_ ∨ _))

theorem halted_of_not_stopped {state : State} (h : ¬ state.Stopped) : state.halted = false :=
  Bool.eq_false_iff.2 fun hh => h (Or.inl hh)

theorem slotIndex?_isNone_iff {state : State} :
    (slotIndex? state.counter).isNone = true ↔ state.Outside := by
  rw [Option.isNone_iff_eq_none, slotIndex?_eq_none_iff, Outside]
  omega

end State

namespace Machine

variable {machine : Machine}

theorem exit?_of_halted (h : machine.state.halted = true) :
    machine.exit? = some (if machine.hitLimit then .limitReached else .halted) := by
  rw [exit?, if_pos h]

theorem exit?_of_outside (h : machine.state.halted = false) (ho : machine.state.Outside) :
    machine.exit? = some .outOfProgram := by
  rw [exit?, if_neg (Bool.eq_false_iff.1 h),
    if_pos (State.slotIndex?_isNone_iff.2 ho)]

theorem exit?_eq_none_iff : machine.exit? = none ↔ ¬ machine.state.Stopped := by
  cases hh : machine.state.halted with
  | true => simp [exit?_of_halted hh, State.Stopped, hh]
  | false =>
    by_cases ho : machine.state.Outside
    · simp [exit?_of_outside hh ho, State.Stopped, ho]
    · have hs : ¬ (slotIndex? machine.state.counter).isNone = true :=
        mt State.slotIndex?_isNone_iff.1 ho
      simp [exit?, State.Stopped, hh, ho, hs]

theorem run_of_exit? {exit : Exit} (h : machine.exit? = some exit) :
    machine.run = (exit, machine) := by
  rw [run]
  split
  · next e he => rw [h] at he; cases he; rfl
  · next he => rw [h] at he; cases he

theorem run_of_not_stopped (h : ¬ machine.state.Stopped) : machine.run = machine.step.run := by
  rw [run]
  split
  · next e he => rw [exit?_eq_none_iff.2 h] at he; cases he
  · rfl

theorem run_step_iterate {n : Nat}
    (h : ∀ j < n, ¬ ((step^[j] machine).state.halted = false ∧ (step^[j] machine).state.Outside)) :
    (step^[n] machine).run = machine.run := by
  induction n with
  | zero => rfl
  | succ n ih =>
    have hr := ih fun j hj => h j (Nat.lt_succ_of_lt hj)
    have hn := h n n.lt_succ_self
    rw [Function.iterate_succ_apply']
    cases hh : (step^[n] machine).state.halted with
    | true => rw [step_of_halted hh, hr]
    | false =>
      have hs : ¬ (step^[n] machine).state.Stopped := by
        rintro (ht | ho)
        · rw [hh] at ht; cases ht
        · exact hn ⟨hh, ho⟩
      rw [← run_of_not_stopped hs, hr]

/-- A run is as many steps as lead to the first machine that is stopped. -/
theorem run_eq_iterate (machine : Machine) :
    ∃ k, (step^[k] machine).state.Stopped ∧ (∀ j < k, ¬ (step^[j] machine).state.Stopped) ∧
      (step^[k] machine).exit? = some machine.run.1 ∧ machine.run.2 = step^[k] machine := by
  induction machine using run.induct with
  | case1 machine exit he =>
    have hs : machine.state.Stopped := by
      by_contra hs
      rw [exit?_eq_none_iff.2 hs] at he
      cases he
    rw [run_of_exit? he]
    exact ⟨0, hs, fun j hj => absurd hj j.not_lt_zero, he, rfl⟩
  | case2 machine he ih =>
    obtain ⟨k, hs, hf, hx, hr⟩ := ih
    have hn := exit?_eq_none_iff.1 he
    rw [run_of_not_stopped hn]
    refine ⟨k + 1, hs, ?_, hx, hr⟩
    intro j hj
    cases j with
    | zero => exact hn
    | succ j => exact hf j (Nat.lt_of_succ_lt_succ hj)

theorem run_run (machine : Machine) : machine.run.2.run = machine.run := by
  obtain ⟨k, -, -, hx, hr⟩ := run_eq_iterate machine
  rw [← hr] at hx
  rw [run_of_exit? hx]

/-- A run takes no more steps than the limit leaves, save that it may take one to notice that the
limit was passed before. -/
theorem run_eq_iterate_within (hc : machine.Countable) :
    ∃ k ≤ max (machine.limit.toNat - machine.cycles.toNat) 1,
      (step^[k] machine).state.Stopped ∧ (∀ j < k, ¬ (step^[j] machine).state.Stopped) ∧
        (step^[k] machine).exit? = some machine.run.1 ∧ machine.run.2 = step^[k] machine := by
  obtain ⟨k, hs, hf, hr⟩ := run_eq_iterate machine
  refine ⟨k, ?_, hs, hf, hr⟩
  by_contra hk
  exact hf _ (Nat.lt_of_not_le hk) (Or.inl hc.halted_within)

end Machine

end Accumulator
