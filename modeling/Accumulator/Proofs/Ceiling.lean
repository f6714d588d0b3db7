import Accumulator.Proofs.Run

namespace Accumulator

namespace Program

variable (program : Program)

/-- A step of a machine that counts no cycles and so has no limit to reach. -/
def freeStep (state : State) : State := if state.halted then state else program.cycle state

def free (n : Nat) : State := program.freeStep^[n] {}

theorem free_succ {n : Nat} (h : (program.free n).halted = false) :
    program.free (n + 1) = program.cycle (program.free n) := by
  rw [free, Function.iterate_succ_apply', ← free, freeStep, if_neg (Bool.eq_false_iff.1 h)]

end Program

namespace Machine

variable {start machine : Machine} {source : String}

theorem load_cycles (h : start.load source = .ok machine) :
    machine.cycles = 0 ∧ machine.hitLimit = false := by
  obtain ⟨program, -, rfl⟩ := load_eq_ok h
  exact ⟨rfl, rfl⟩

/-- Below its limit a machine goes through the states of a machine without a limit. -/
theorem step_iterate_free (h : start.load source = .ok machine) {n : Nat}
    (hn : n ≤ max machine.limit.toNat 1 - 1)
    (hf : ∀ j < n, ¬ (machine.program.free j).Stopped) :
    (step^[n] machine).state = machine.program.free n ∧ (step^[n] machine).cycles.toNat = n ∧
      (step^[n] machine).hitLimit = false := by
  induction n with
  | zero =>
    obtain ⟨hc, hl⟩ := load_cycles h
    exact ⟨load_state h, by rw [Function.iterate_zero_apply, hc]; rfl, hl⟩
  | succ n ih =>
    obtain ⟨hs, hc, hb⟩ := ih (Nat.le_of_succ_le hn) fun j hj => hf j (Nat.lt_succ_of_lt hj)
    have hk := (Countable.load h).iterate n
    have hr := State.halted_of_not_stopped (hf n n.lt_succ_self)
    have hh : (step^[n] machine).state.halted = false := by rw [hs, hr]
    have hl : ¬ (step^[n] machine).limit ≤ (step^[n] machine).cycles + 1 := by
      rw [hk.limit_le_iff hh, hc, step_iterate_limit]
      omega
    have ht := hk.toNat_succ hh
    rw [hc] at ht
    rw [Function.iterate_succ_apply', step_below_limit hh hl]
    refine ⟨?_, ht, hb⟩
    rw [Program.free_succ _ hr, step_iterate_program, ← hs]

theorem run_step_iterate_free (h : start.load source = .ok machine) {n : Nat}
    (hn : n ≤ max machine.limit.toNat 1 - 1)
    (hf : ∀ j < n, ¬ (machine.program.free j).Stopped) :
    (step^[n] machine).run = machine.run := by
  apply run_step_iterate
  rintro j hj ⟨-, ho⟩
  obtain ⟨hs, -, -⟩ := step_iterate_free h (Nat.le_trans (Nat.le_of_lt hj) hn)
    fun i hi => hf i (Nat.lt_trans hi hj)
  rw [hs] at ho
  exact hf j hj (Or.inr ho)

theorem run_of_free_stopped (h : start.load source = .ok machine) {k : Nat}
    (hk : k ≤ max machine.limit.toNat 1 - 1) (hs : (machine.program.free k).Stopped)
    (hf : ∀ j < k, ¬ (machine.program.free j).Stopped) :
    machine.run.1 = (if (machine.program.free k).halted then .halted else .outOfProgram) ∧
      machine.run.2.state = machine.program.free k ∧ machine.run.2.cycles.toNat = k ∧
      machine.run.2.hitLimit = false := by
  obtain ⟨ht, hc, hb⟩ := step_iterate_free h hk hf
  have hx : (step^[k] machine).exit? =
      some (if (machine.program.free k).halted then .halted else .outOfProgram) := by
    rw [← ht] at hs ⊢
    cases hh : (step^[k] machine).state.halted with
    | true => rw [exit?_of_halted hh, hb]; rfl
    | false =>
      rcases hs with hs | ho
      · rw [hh] at hs; cases hs
      · rw [exit?_of_outside hh ho]; rfl
  rw [← run_step_iterate_free h hk hf, run_of_exit? hx]
  exact ⟨rfl, ht, hc, hb⟩

theorem run_of_free_running (h : start.load source = .ok machine)
    (hf : ∀ k ≤ max machine.limit.toNat 1 - 1, ¬ (machine.program.free k).Stopped) :
    machine.run.1 = .limitReached ∧
      machine.run.2.state =
        { machine.program.free (max machine.limit.toNat 1 - 1) with halted := true } ∧
      machine.run.2.cycles.toNat = max machine.limit.toNat 1 ∧ machine.run.2.hitLimit = true := by
  let last := step^[max machine.limit.toNat 1 - 1] machine
  have hb : ∀ j < max machine.limit.toNat 1 - 1, ¬ (machine.program.free j).Stopped :=
    fun j hj => hf j (Nat.le_of_lt hj)
  obtain ⟨hs, hc, -⟩ := step_iterate_free h (Nat.le_refl _) hb
  have hn : ¬ last.state.Stopped := by
    rw [hs]
    exact hf _ (Nat.le_refl _)
  have hh := State.halted_of_not_stopped hn
  have hk : last.Countable := (Countable.load h).iterate _
  have hl : last.limit ≤ last.cycles + 1 := by
    rw [hk.limit_le_iff hh, hc, step_iterate_limit]
    omega
  have ht := hk.toNat_succ hh
  rw [← run_step_iterate_free h (Nat.le_refl _) hb, run_of_not_stopped hn, step_at_limit hh hl,
    run_of_exit? (exit?_of_halted rfl), ← hs]
  refine ⟨rfl, rfl, ?_, rfl⟩
  change (last.cycles + 1).toNat = _
  rw [ht, hc]
  omega

theorem exists_first_stopped (h : start.load source = .ok machine)
    (hx : machine.run.1 = .halted ∨ machine.run.1 = .outOfProgram) :
    ∃ k ≤ max machine.limit.toNat 1 - 1, (machine.program.free k).Stopped ∧
      ∀ j < k, ¬ (machine.program.free j).Stopped := by
  by_cases hn : ∃ k, k ≤ max machine.limit.toNat 1 - 1 ∧ (machine.program.free k).Stopped
  · refine ⟨Nat.find hn, (Nat.find_spec hn).1, (Nat.find_spec hn).2, fun j hj hs => ?_⟩
    have hk := (Nat.find_spec hn).1
    exact Nat.find_min hn hj ⟨by omega, hs⟩
  · have hr := (run_of_free_running h fun k hk hs => hn ⟨k, hk, hs⟩).1
    rw [hr] at hx
    rcases hx with hx | hx <;> cases hx

theorem load_program {other : Machine} {first : Machine} (h : start.load source = .ok machine)
    (ho : first.load source = .ok other) : other.program = machine.program := by
  obtain ⟨program, hp, rfl⟩ := load_eq_ok h
  obtain ⟨program', hp', rfl⟩ := load_eq_ok ho
  rw [hp] at hp'
  cases hp'
  rfl

theorem run_of_higher_limit {first other : Machine} (h : start.load source = .ok machine)
    (ho : first.load source = .ok other) (hl : machine.limit.toNat ≤ other.limit.toNat)
    (hx : machine.run.1 = .halted ∨ machine.run.1 = .outOfProgram) :
    other.run.1 = machine.run.1 ∧ other.run.2.state = machine.run.2.state ∧
      other.run.2.cycles = machine.run.2.cycles := by
  obtain ⟨k, hk, hs, hf⟩ := exists_first_stopped h hx
  obtain ⟨hx₁, hs₁, hc₁, -⟩ := run_of_free_stopped h hk hs hf
  rw [← load_program h ho] at hs hf
  obtain ⟨hx₂, hs₂, hc₂, -⟩ := run_of_free_stopped ho (by omega) hs hf
  rw [load_program h ho] at hx₂ hs₂
  exact ⟨hx₂.trans hx₁.symm, hs₂.trans hs₁.symm, UInt32.toNat_inj.1 (hc₂.trans hc₁.symm)⟩

/-- The limit cuts the run without a limit short, and a run that it does not cut short is the same
under every higher limit. -/
theorem run_truncates_free {limit : UInt32} (h : (withLimit limit).load source = .ok machine) :
    let free := machine.program.free
    let last := max limit.toNat 1 - 1
    (∀ k, (free k).Stopped → (∀ j < k, ¬ (free j).Stopped) → k ≤ last →
      machine.run.1 = (if (free k).halted then .halted else .outOfProgram) ∧
        machine.run.2.state = free k ∧ machine.run.2.cycles.toNat = k ∧
        machine.run.2.hitLimit = false) ∧
      ((¬ ∃ k ≤ last, (free k).Stopped) →
        machine.run.1 = .limitReached ∧
          machine.run.2.state = { free last with halted := true } ∧
          machine.run.2.cycles.toNat = max limit.toNat 1 ∧ machine.run.2.hitLimit = true) ∧
      ∀ higher ≥ limit, ∀ other, (withLimit higher).load source = .ok other →
        machine.run.1 = .halted ∨ machine.run.1 = .outOfProgram →
        other.run.1 = machine.run.1 ∧ other.run.2.state = machine.run.2.state ∧
          other.run.2.cycles = machine.run.2.cycles := by
  intro free last
  have hl : last = max machine.limit.toNat 1 - 1 := by rw [load_limit h]; rfl
  refine ⟨?_, ?_, ?_⟩
  · intro k hs hf hk
    exact run_of_free_stopped h (Nat.le_trans hk (Nat.le_of_eq hl)) hs hf
  · intro hn
    have hr := run_of_free_running h fun k hk hs => hn ⟨k, by omega, hs⟩
    rwa [load_limit h] at hr
  · intro higher hh other ho
    refine run_of_higher_limit h ho ?_
    rw [load_limit h, load_limit ho]
    exact UInt32.le_iff_toNat_le.1 hh

theorem run_truncates_free_at_halt :
    (∃ machine, (withLimit 4).load "LDI 1\nXCH\nHLT" = .ok machine ∧
      machine.run.1 = .halted ∧ machine.run.2.cycles.toNat = 3) ∧
    ∃ machine, (withLimit 3).load "LDI 1\nXCH\nHLT" = .ok machine ∧
      machine.run.1 = .limitReached ∧ machine.run.2.cycles.toNat = 3 := by
  have hp : Program.ofSource "LDI 1\nXCH\nHLT" = .ok (Program.ofList
      [some (.ldi 1), some .xch, some .hlt]) := by
    cbv
  constructor
  · have hl := load_of_ofSource (withLimit 4) hp
    obtain ⟨hx, -, hc, -⟩ := (run_truncates_free hl).1 3 (by decide +kernel) (by decide +kernel)
      (by decide)
    exact ⟨_, hl, hx.trans (by decide +kernel), hc⟩
  · have hl := load_of_ofSource (withLimit 3) hp
    obtain ⟨hx, -, hc, -⟩ := (run_truncates_free hl).2.1 (by decide +kernel)
    exact ⟨_, hl, hx, hc.trans (by decide)⟩

end Machine

end Accumulator
