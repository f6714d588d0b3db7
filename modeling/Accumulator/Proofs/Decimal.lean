import Accumulator.Text.Integer
import Mathlib

namespace Accumulator.Text.Integer

def natural? (digits : List Char) : Option Nat :=
  if digits ≠ [] ∧ ∀ c ∈ digits, c.isDigit = true then some (Nat.ofDigitChars 10 digits 0) else none

/-- The number that is written in an optional sign and decimal digits. -/
def integer? : List Char → Option Int
  | '-' :: digits => (natural? digits).map fun n : Nat => -(n : Int)
  | '+' :: digits => (natural? digits).map fun n : Nat => (n : Int)
  | digits => (natural? digits).map fun n : Nat => (n : Int)

def int32? (text : List Char) : Option Int32 :=
  (integer? text).bind fun n =>
    if -2 ^ 31 ≤ n ∧ n < 2 ^ 31 then some (Int32.ofInt n) else none

theorem le_ofDigitChars (digits : List Char) (value : Nat) :
    value ≤ Nat.ofDigitChars 10 digits value := by
  rw [Nat.ofDigitChars_eq_ofDigitChars_zero]
  have hp : 1 * value ≤ 10 ^ digits.length * value :=
    Nat.mul_le_mul_right value (Nat.pow_pos (by decide))
  omega

/-- Digits are read to the end of their run, unless their number passes the bound before. -/
theorem readDigits_eq {bound value : Nat} {excess : Fault} (text : List Char) (hv : value ≤ bound) :
    readDigits bound excess value text =
      let n := Nat.ofDigitChars 10 (text.takeWhile Char.isDigit) value
      if bound < n then .error excess
      else if text.dropWhile Char.isDigit = [] then .ok n
      else .error .invalidDigit := by
  induction text generalizing value with
  | nil => simp [readDigits, hv]
  | cons c text ih =>
    rw [readDigits]
    cases hc : c.isDigit with
    | false => simp [hc, hv]
    | true =>
      rw [if_pos rfl, List.takeWhile_cons_of_pos hc, List.dropWhile_cons_of_pos hc,
        Nat.ofDigitChars_cons]
      by_cases hb : 10 * value + (c.toNat - '0'.toNat) ≤ bound
      · simp only [if_pos hb]
        exact ih hb
      · -- more digits only make the number larger
        have hle := le_ofDigitChars (text.takeWhile Char.isDigit)
          (10 * value + (c.toNat - '0'.toNat))
        simp only [if_neg hb]
        rw [if_pos (by omega)]

theorem readDigits_eq_ok_iff {bound value n : Nat} {excess : Fault} {digits : List Char}
    (hv : value ≤ bound) :
    readDigits bound excess value digits = .ok n ↔
      (∀ c ∈ digits, c.isDigit = true) ∧ Nat.ofDigitChars 10 digits value = n ∧ n ≤ bound := by
  rw [readDigits_eq digits hv, ← List.dropWhile_eq_nil_iff]
  by_cases hd : digits.dropWhile Char.isDigit = []
  · have ht : digits.takeWhile Char.isDigit = digits :=
      List.takeWhile_eq_self_iff.2 (List.dropWhile_eq_nil_iff.1 hd)
    simp only [ht, hd, if_true, true_and]
    split
    · simp only [reduceCtorEq, false_iff]
      omega
    · simp only [Except.ok.injEq]
      omega
  · simp only [hd, if_false, false_and, iff_false]
    split <;> simp

theorem toOption_eq_some_iff {ε α : Type} {x : Except ε α} {a : α} :
    x.toOption = some a ↔ x = .ok a := by
  cases x <;> simp [Except.toOption]

theorem toOption_readMagnitude (bound : Nat) (excess : Fault) (digits : List Char) :
    (readMagnitude bound excess digits).toOption = (natural? digits).filter (· ≤ bound) := by
  cases digits with
  | nil => rfl
  | cons c digits =>
    apply Option.ext
    intro n
    rw [toOption_eq_some_iff, Option.filter_eq_some_iff, readMagnitude,
      readDigits_eq_ok_iff (Nat.zero_le bound), natural?]
    · simp [and_assoc]
    · simp

theorem toOption_map {ε α β : Type} (f : α → β) (x : Except ε α) :
    (x.map f).toOption = x.toOption.map f := by
  cases x <;> rfl

theorem filter_map_natural (lower upper bound : Nat) (f : Nat → Int) (digits : List Char)
    (hf : ∀ n : Nat, n ≤ bound ↔ -(lower : Int) ≤ f n ∧ f n ≤ upper) :
    ((natural? digits).filter (· ≤ bound)).map f =
      ((natural? digits).map f).filter fun n => -(lower : Int) ≤ n ∧ n ≤ upper := by
  rw [Option.filter_map]
  congr 2
  funext n
  exact decide_eq_decide.2 (hf n)

theorem toOption_read (lower upper : Nat) (text : List Char) :
    (read lower upper text).toOption =
      (integer? text).filter fun n => -(lower : Int) ≤ n ∧ n ≤ upper := by
  have hm (n : Nat) : n ≤ lower ↔ -(lower : Int) ≤ -(n : Int) ∧ -(n : Int) ≤ upper := by omega
  have hp (n : Nat) : n ≤ upper ↔ -(lower : Int) ≤ (n : Int) ∧ (n : Int) ≤ upper := by omega
  unfold read
  split
  · next digits =>
    rw [toOption_map, toOption_readMagnitude, filter_map_natural lower upper _ _ _ hm]
    rfl
  · next digits =>
    rw [toOption_map, toOption_readMagnitude, filter_map_natural lower upper _ _ _ hp]
    rfl
  · next hminus hplus =>
    rw [toOption_map, toOption_readMagnitude, filter_map_natural lower upper _ _ _ hp, integer?]
    · exact hminus
    · exact hplus

theorem toOption_readInt32 (text : List Char) : (readInt32 text).toOption = int32? text := by
  rw [readInt32, toOption_map, toOption_read, int32?]
  cases integer? text with
  | none => rfl
  | some n =>
    have hs : Int32.size / 2 = 2 ^ 31 := rfl
    have hn : (-((Int32.size / 2 : Nat) : Int) ≤ n ∧ n ≤ ((Int32.size / 2 - 1 : Nat) : Int)) ↔
        -2 ^ 31 ≤ n ∧ n < 2 ^ 31 := by
      rw [hs]
      omega
    simp only [Option.filter_some, Option.bind_some, hn, decide_eq_true_eq]
    split <;> rfl

theorem natural?_toDigits (n : Nat) : natural? (Nat.toDigits 10 n) = some n := by
  have hd : ∀ c ∈ Nat.toDigits 10 n, c.isDigit = true := fun c hc =>
    Nat.isDigit_of_mem_toDigits (by decide) (by decide) hc
  rw [natural?, if_pos ⟨Nat.toDigits_ne_nil, hd⟩, Nat.ofDigitChars_ten_toDigits]

theorem toList_repr_negSucc (n : Nat) :
    (Int.negSucc n).repr.toList = '-' :: Nat.toDigits 10 (n + 1) := by
  rw [Int.repr, String.toList_append, Nat.toList_repr]
  rfl

/-- An integer is read as it was written. -/
theorem integer?_repr (n : Int) : integer? n.repr.toList = some n := by
  cases n with
  | ofNat n =>
    have hd : ∀ c ∈ Nat.toDigits 10 n, c.isDigit = true := fun c hc =>
      Nat.isDigit_of_mem_toDigits (by decide) (by decide) hc
    rw [Int.repr, Nat.toList_repr, integer?, natural?_toDigits]
    · rfl
    · intro digits he
      have hm := hd '-' (he ▸ List.mem_cons_self)
      exact absurd hm (by decide)
    · intro digits he
      have hp := hd '+' (he ▸ List.mem_cons_self)
      exact absurd hp (by decide)
  | negSucc n =>
    rw [toList_repr_negSucc, integer?, natural?_toDigits]
    rfl

theorem int32?_toString (value : Int32) : int32? (toString value.toInt).toList = some value := by
  rw [int32?, Int.toString_eq_repr, integer?_repr, Option.bind_some,
    if_pos ⟨value.le_toInt, value.toInt_lt⟩, Int32.ofInt_toInt]

theorem readUInt32_toString (value : UInt32) :
    readUInt32 (toString value.toNat).toList = .ok value := by
  have hn : integer? (toString value.toNat).toList = some (value.toNat : Int) :=
    integer?_repr (value.toNat : Int)
  have hb : value.toNat ≤ UInt32.size - 1 := Nat.le_pred_of_lt value.toNat_lt
  have hr : read 0 (UInt32.size - 1) (toString value.toNat).toList = .ok (value.toNat : Int) := by
    rw [← toOption_eq_some_iff, toOption_read, hn, Option.filter_some, if_pos]
    simpa using hb
  simp only [readUInt32, hr, Except.map, Int.toNat_natCast, UInt32.ofNat_toNat]

end Accumulator.Text.Integer
