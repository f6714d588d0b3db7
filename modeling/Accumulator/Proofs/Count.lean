import Accumulator.Proofs.Cycle

namespace Accumulator.Machine

variable {machine : Machine}

/-- The next cycle can be counted. A machine that still runs has counted less than some limit. -/
def Countable (machine : Machine) : Prop :=
  machine.state.halted = false → machine.cycles.toNat + 1 < 2 ^ 32

namespace Countable

theorem toNat_succ (hc : machine.Countable) (h : machine.state.halted = false) :
    (machine.cycles + 1).toNat = machine.cycles.toNat + 1 := by
  have hlt := hc h
  rw [UInt32.toNat_add, UInt32.toNat_one, Nat.mod_eq_of_lt hlt]

theorem limit_le_iff (hc : machine.Countable) (h : machine.state.halted = false) :
    machine.limit ≤ machine.cycles + 1 ↔ machine.limit.toNat ≤ machine.cycles.toNat + 1 := by
  rw [UInt32.le_iff_toNat_le, hc.toNat_succ h]

theorem of_cycles_eq_zero (h : machine.cycles = 0) : machine.Countable := by
  intro _
  rw [h]
  decide

theorem load {start : Machine} {source : String} (h : start.load source = .ok machine) :
    machine.Countable := by
  obtain ⟨program, -, rfl⟩ := load_eq_ok h
  exact of_cycles_eq_zero rfl

theorem step (hc : machine.Countable) : machine.step.Countable := by
  obtain ⟨-, hs⟩ | ⟨-, -, hs⟩ | ⟨hh, hl, hs⟩ := machine.step_cases
  · rwa [hs]
  · rw [hs]
    intro h
    cases h
  · rw [hs]
    intro _
    -- the limit itself has 32 bits, so a count below it leaves room for one more
    have hb := machine.limit.toNat_lt
    rw [hc.limit_le_iff hh] at hl
    change (machine.cycles + 1).toNat + 1 < 2 ^ 32
    rw [hc.toNat_succ hh]
    omega

theorem iterate (hc : machine.Countable) (n : Nat) : (Machine.step^[n] machine).Countable := by
  induction n with
  | zero => exact hc
  | succ n ih =>
    rw [Function.iterate_succ_apply']
    exact ih.step

theorem cycles_iterate (hc : machine.Countable) {n : Nat}
    (h : (Machine.step^[n] machine).state.halted = false) :
    (Machine.step^[n] machine).cycles.toNat = machine.cycles.toNat + n ∧
      (0 < n → machine.cycles.toNat + n < machine.limit.toNat) := by
  induction n with
  | zero => exact ⟨rfl, fun hn => absurd hn (Nat.lt_irrefl 0)⟩
  | succ n ih =>
    rw [Function.iterate_succ_apply'] at h ⊢
    obtain ⟨hh, hs⟩ | ⟨-, -, hs⟩ | ⟨hh, hl, hs⟩ := (Machine.step^[n] machine).step_cases
    · rw [hs, hh] at h
      cases h
    · rw [hs] at h
      cases h
    · obtain ⟨hn, -⟩ := ih hh
      have ht := (hc.iterate n).toNat_succ hh
      rw [(hc.iterate n).limit_le_iff hh, step_iterate_limit, hn] at hl
      rw [hn] at ht
      rw [hs]
      exact ⟨ht, fun _ => Nat.lt_of_not_le hl⟩

theorem halted_within (hc : machine.Countable) :
    (Machine.step^[max (machine.limit.toNat - machine.cycles.toNat) 1] machine).state.halted =
      true := by
  by_contra hh
  have hl := (hc.cycles_iterate (Bool.not_eq_true _ ▸ hh)).2 (by omega)
  omega

end Countable

end Accumulator.Machine
