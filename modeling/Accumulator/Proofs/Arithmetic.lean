import Accumulator.State
import Mathlib

namespace Accumulator

def IsWord32 (n : Int) : Prop := -2 ^ 31 ≤ n ∧ n < 2 ^ 31

def signBit (value : Int32) : Bool := value.toBitVec.msb

theorem signBit_eq (value : Int32) : signBit value = decide (value.toInt < 0) :=
  BitVec.msb_eq_toInt

theorem isWord32_toInt (value : Int32) : IsWord32 value.toInt :=
  ⟨value.le_toInt, value.toInt_lt⟩

theorem toInt_ofInt_modEq (n : Int) : (Int32.ofInt n).toInt ≡ n [ZMOD 2 ^ 32] := by
  rw [Int32.toInt_ofInt]
  exact Int.bmod_emod

section

variable {a d r : Int} (ha : IsWord32 a) (hd : IsWord32 d) (hr : IsWord32 r)

include ha hr in
theorem eq_of_modEq (h : r ≡ a [ZMOD 2 ^ 32]) : r = a := by
  simp only [IsWord32, Int.ModEq] at *
  omega

include ha hd hr in
/-- Wrapped or not, a difference is zero only of equal words. -/
theorem difference_eq_zero_iff (h : r ≡ a - d [ZMOD 2 ^ 32]) : r = 0 ↔ a = d := by
  simp only [IsWord32, Int.ModEq] at *
  omega

include ha hd hr in
theorem sum_wrapped_to_zero_iff (h : r ≡ a + d [ZMOD 2 ^ 32]) :
    r = 0 ∧ ¬ IsWord32 (a + d) ↔ a = -2 ^ 31 ∧ d = -2 ^ 31 := by
  simp only [IsWord32, Int.ModEq] at *
  omega

include ha hd hr in
theorem sum_wrapped_iff (h : r ≡ a + d [ZMOD 2 ^ 32]) :
    ¬ IsWord32 (a + d) ↔ (a < 0 ↔ d < 0) ∧ ¬ (r < 0 ↔ a < 0) := by
  simp only [IsWord32, Int.ModEq] at *
  omega

include ha hd hr in
theorem difference_wrapped_iff (h : r ≡ a - d [ZMOD 2 ^ 32]) :
    ¬ IsWord32 (a - d) ↔ ¬ (a < 0 ↔ d < 0) ∧ ¬ (r < 0 ↔ a < 0) := by
  simp only [IsWord32, Int.ModEq] at *
  omega

end

namespace State

/-- The state `after` holds the exact result of an operation on `before`, as far as a word can hold
it, and is the same in all else. -/
structure Takes (before : State) (exact : Int) (after : State) : Prop where
  isWord : IsWord32 after.accumulator.toInt
  congruent : after.accumulator.toInt ≡ exact [ZMOD 2 ^ 32]
  unique : ∀ n, IsWord32 n → n ≡ exact [ZMOD 2 ^ 32] → n = after.accumulator.toInt
  overflow : after.overflow = true ↔ ¬ IsWord32 exact
  zero : after.zero = true ↔ after.accumulator = 0
  rest : after = { before with
    accumulator := after.accumulator, zero := after.zero, overflow := after.overflow }

theorem takes_setResult (state : State) (exact : Int) :
    state.Takes exact (state.setResult exact) where
  isWord := isWord32_toInt _
  congruent := toInt_ofInt_modEq exact
  unique _ hn hc := eq_of_modEq (isWord32_toInt _) hn (hc.trans (toInt_ofInt_modEq exact).symm)
  overflow := by
    have hm : Int32.minValue.toInt = -2 ^ 31 := rfl
    have hx : Int32.maxValue.toInt = 2 ^ 31 - 1 := rfl
    simp only [setResult, decide_eq_true_eq, IsWord32, hm, hx]
    omega
  zero := beq_iff_eq
  rest := rfl

namespace Takes

variable {before after last : State} {exact : Int}

theorem zero_iff (h : before.Takes exact after) :
    after.zero = true ↔ after.accumulator.toInt = 0 := by
  rw [h.zero, ← Int32.toInt_inj]
  rfl

theorem accumulator_eq {back : Int} {value : Int32} (h : before.Takes exact after)
    (hb : after.Takes (after.accumulator.toInt + back) last) (he : exact + back = value.toInt) :
    last.accumulator = value := by
  apply Int32.toInt_inj.1
  apply eq_of_modEq (isWord32_toInt value) hb.isWord
  calc
    last.accumulator.toInt ≡ after.accumulator.toInt + back [ZMOD 2 ^ 32] := hb.congruent
    _ ≡ exact + back [ZMOD 2 ^ 32] := h.congruent.add_right back
    _ = value.toInt := he

end Takes

end State

namespace Instruction

variable (state : State)

theorem takes_add :
    state.Takes (state.accumulator.toInt + state.dataRegister.toInt) (add.execute state) :=
  state.takes_setResult _

theorem takes_sub :
    state.Takes (state.accumulator.toInt - state.dataRegister.toInt) (sub.execute state) :=
  state.takes_setResult _

theorem sub_zero_iff :
    (sub.execute state).zero = true ↔ state.accumulator = state.dataRegister := by
  have h := takes_sub state
  rw [h.zero_iff, ← Int32.toInt_inj]
  exact difference_eq_zero_iff (isWord32_toInt _) (isWord32_toInt _) h.isWord h.congruent

theorem not_sub_zero_and_overflow :
    ¬ ((sub.execute state).zero = true ∧ (sub.execute state).overflow = true) := by
  rintro ⟨hz, ho⟩
  rw [sub_zero_iff] at hz
  rw [(takes_sub state).overflow, hz, Int.sub_self] at ho
  exact ho ⟨by decide, by decide⟩

theorem add_zero_and_overflow_iff :
    (add.execute state).zero = true ∧ (add.execute state).overflow = true ↔
      state.accumulator.toInt = -2 ^ 31 ∧ state.dataRegister.toInt = -2 ^ 31 := by
  have h := takes_add state
  rw [h.zero_iff, h.overflow]
  exact sum_wrapped_to_zero_iff (isWord32_toInt _) (isWord32_toInt _) h.isWord h.congruent

theorem add_overflow_iff_signBit :
    (add.execute state).overflow = true ↔
      signBit state.accumulator = signBit state.dataRegister ∧
        signBit (add.execute state).accumulator ≠ signBit state.accumulator := by
  have h := takes_add state
  simp only [h.overflow, signBit_eq, ne_eq, decide_eq_decide]
  exact sum_wrapped_iff (isWord32_toInt _) (isWord32_toInt _) h.isWord h.congruent

theorem sub_overflow_iff_signBit :
    (sub.execute state).overflow = true ↔
      signBit state.accumulator ≠ signBit state.dataRegister ∧
        signBit (sub.execute state).accumulator ≠ signBit state.accumulator := by
  have h := takes_sub state
  simp only [h.overflow, signBit_eq, ne_eq, decide_eq_decide]
  exact difference_wrapped_iff (isWord32_toInt _) (isWord32_toInt _) h.isWord h.congruent

theorem add_sub_accumulator :
    (add.execute (sub.execute state)).accumulator = state.accumulator :=
  (takes_sub state).accumulator_eq (takes_add (sub.execute state)) (Int.sub_add_cancel _ _)

theorem sub_add_accumulator :
    (sub.execute (add.execute state)).accumulator = state.accumulator :=
  (takes_add state).accumulator_eq (takes_sub (add.execute state)) (Int.add_sub_cancel _ _)

theorem counter_jzs (target : Int32) :
    ((jzs target).execute state).counter = if state.zero then target else state.counter := by
  rw [execute]
  split <;> rfl

theorem jzs_sub (target : Int32) :
    (jzs target).advances (sub.execute state) =
        decide (state.accumulator ≠ state.dataRegister) ∧
      ((jzs target).execute (sub.execute state)).counter =
        if state.accumulator = state.dataRegister then target else state.counter := by
  have ha : (jzs target).advances (sub.execute state) = !(sub.execute state).zero := rfl
  have hc : (sub.execute state).counter = state.counter := rfl
  rw [ha, counter_jzs, hc]
  by_cases h : state.accumulator = state.dataRegister
  · rw [(sub_zero_iff state).2 h, if_pos h, if_pos rfl, decide_eq_false (not_not.2 h)]
    exact ⟨rfl, rfl⟩
  · rw [Bool.eq_false_iff.2 (mt (sub_zero_iff state).1 h), if_neg h, decide_eq_true h]
    exact ⟨rfl, rfl⟩

end Instruction

namespace State

open Instruction

/-- Sums and differences are those of integers, cut to the words that they are congruent to, and the
flags speak of them rightly whatever they were before. -/
theorem sums_and_differences_exact (state : State) :
    let a := state.accumulator
    let d := state.dataRegister
    let sum := add.execute state
    let difference := sub.execute state
    (state.Takes (a.toInt + d.toInt) sum ∧ state.Takes (a.toInt - d.toInt) difference) ∧
      (∀ zero overflow, add.execute { state with zero, overflow } = sum ∧
        sub.execute { state with zero, overflow } = difference) ∧
      (difference.zero = true ↔ a = d) ∧
      ¬ (difference.zero = true ∧ difference.overflow = true) ∧
      (∀ target, (jzs target).advances difference = decide (a ≠ d) ∧
        ((jzs target).execute difference).counter = if a = d then target else state.counter) ∧
      (sum.zero = true ∧ sum.overflow = true ↔ a.toInt = -2 ^ 31 ∧ d.toInt = -2 ^ 31) ∧
      (sum.overflow = true ↔ signBit a = signBit d ∧ signBit sum.accumulator ≠ signBit a) ∧
      (difference.overflow = true ↔
        signBit a ≠ signBit d ∧ signBit difference.accumulator ≠ signBit a) ∧
      (add.execute difference).accumulator = a ∧ (sub.execute sum).accumulator = a := by
  intro a d sum difference
  refine ⟨⟨takes_add state, takes_sub state⟩, fun _ _ => ⟨rfl, rfl⟩, sub_zero_iff state,
    not_sub_zero_and_overflow state, jzs_sub state, add_zero_and_overflow_iff state,
    add_overflow_iff_signBit state, sub_overflow_iff_signBit state, add_sub_accumulator state,
    sub_add_accumulator state⟩

end State

end Accumulator
