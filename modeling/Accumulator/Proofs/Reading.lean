import Accumulator.Proofs.Bytes

namespace Accumulator.Text

/-- The text between two bytes, if characters start there or the text ends there. To take any other
slice is to crash. -/
def slice? (text : String) (start stop : Nat) : Option String :=
  if start ≤ stop ∧ (⟨start⟩ : String.Pos.Raw).IsValid text ∧
      (⟨stop⟩ : String.Pos.Raw).IsValid text then
    String.fromUTF8? (text.toByteArray.extract start stop)
  else none

theorem slice?_middle (before text after : String) :
    slice? (before ++ text ++ after) before.utf8ByteSize
      (before.utf8ByteSize + text.utf8ByteSize) = some text := by
  have hstart : (⟨before.utf8ByteSize⟩ : String.Pos.Raw).IsValid (before ++ text ++ after) := by
    rw [String.append_assoc]
    exact isValid_append before (text ++ after)
  have hstop := isValid_append (before ++ text) after
  rw [String.utf8ByteSize_append] at hstop
  rw [slice?, if_pos ⟨Nat.le_add_right _ _, hstart, hstop⟩, extract_middle, String.fromUTF8?,
    dif_pos text.isValidUTF8]
  rfl

theorem slice?_rest (before rest : String) :
    slice? (before ++ rest) before.utf8ByteSize (before ++ rest).utf8ByteSize = some rest := by
  have hs := slice?_middle before rest ""
  rwa [String.append_empty, ← String.utf8ByteSize_append] at hs

variable {σ α : Type} (call : σ → Option (Option α × σ))

/-- The state behind a number of calls, if none of them crashes. -/
def after? : Nat → σ → Option σ
  | 0, state => some state
  | n + 1, state => (call state).bind fun (_, next) => after? n next

/-- The calls give the items, one after the other, and nothing from then on. None of them crashes. -/
def Gives (state : σ) (items : List α) : Prop :=
  ∀ n, ∃ here next, after? call n state = some here ∧ call here = some (items[n]?, next)

/-- From any state, a call gives the first of the items that are left, and leaves the others. -/
def Keeps (left : σ → List α → Prop) : Prop :=
  ∀ ⦃state items⦄, left state items →
    ∃ next, call state = some (items.head?, next) ∧ left next items.tail

variable {call} {left : σ → List α → Prop} {state : σ} {items : List α}

theorem Keeps.after? (hk : Keeps call left) (h : left state items) (n : Nat) :
    ∃ here, after? call n state = some here ∧ left here (items.drop n) := by
  induction n generalizing state items with
  | zero => exact ⟨state, rfl, h⟩
  | succ n ih =>
    obtain ⟨next, hc, hn⟩ := hk h
    obtain ⟨here, ha, hl⟩ := ih hn
    refine ⟨here, ?_, ?_⟩
    · rw [Text.after?, hc]
      exact ha
    · rwa [List.drop_tail] at hl

theorem Keeps.gives (hk : Keeps call left) (h : left state items) : Gives call state items := by
  intro n
  obtain ⟨here, ha, hl⟩ := hk.after? h n
  obtain ⟨next, hc, -⟩ := hk hl
  rw [List.head?_drop] at hc
  exact ⟨here, next, ha, hc⟩

end Accumulator.Text
