import Accumulator.Proofs.Escapes
import Accumulator.Proofs.Reading

namespace Accumulator.Text

/-- Leaves an escape sequence behind the first `m`. -/
def drain : List Char → List Char
  | [] => []
  | c :: text => if c = 'm' then text else drain text

theorem length_drain_le (text : List Char) : (drain text).length ≤ text.length := by
  induction text with
  | nil => exact Nat.le_refl 0
  | cons c text ih =>
    rw [drain, List.length_cons]
    split <;> omega

/-- Takes the first character outside of escape sequences, each of which is drained. -/
def nextVisible : List Char → Option Char × List Char
  | [] => (none, [])
  | c :: text => if c = escape then nextVisible (drain text) else (some c, text)
termination_by text => text.length
decreasing_by
  have hl := length_drain_le text
  rw [List.length_cons]
  omega

theorem visible_true (text : List Char) : visible true text = visible false (drain text) := by
  induction text with
  | nil => rfl
  | cons c text ih =>
    by_cases hc : c = 'm'
    · subst hc
      rfl
    · rw [drain, if_neg hc, ← ih, visible, if_pos rfl, bne_iff_ne.2 hc]

theorem nextVisible_eq (text : List Char) :
    (nextVisible text).1 = (visible false text).head? ∧
      visible false (nextVisible text).2 = (visible false text).tail := by
  induction text using nextVisible.induct with
  | case1 =>
    rw [nextVisible]
    exact ⟨rfl, rfl⟩
  | case2 text ih =>
    have hv : visible false (escape :: text) = visible false (drain text) := visible_true text
    rw [nextVisible, if_pos rfl, hv]
    exact ih
  | case3 c text hc =>
    have hv : visible false (c :: text) = c :: visible false text := if_neg hc
    rw [nextVisible, if_neg hc, hv]
    exact ⟨rfl, rfl⟩

theorem gives_visible (text : List Char) :
    Gives (fun text => some (nextVisible text)) text (visible false text) := by
  have hk : Keeps (fun text => some (nextVisible text)) fun text shown =>
      shown = visible false text := by
    rintro text shown rfl
    obtain ⟨hc, ht⟩ := nextVisible_eq text
    exact ⟨(nextVisible text).2, by rw [← hc], ht.symm⟩
  exact hk.gives rfl

theorem strip_eq_iff {text : String} : strip text = text ↔ escape ∉ text.toList := by
  constructor
  · intro h
    rw [← h]
    exact escape_not_mem_strip text
  · exact strip_of_plain

theorem strip_append_iff {s : String} :
    (∀ t, strip (s ++ t) = strip s ++ strip t) ↔ EndsEscapes s.toList := by
  simp only [strip, String.toList_append, ← String.ofList_append, String.ofList_inj, endsEscapes_iff,
    visible_append, List.append_cancel_left_eq]
  constructor
  · intro h
    cases ho : openAfter false s.toList with
    | false => rfl
    | true =>
      have ht := h "a"
      rw [ho] at ht
      cases ht
  · intro h t
    rw [h]

theorem strip_paintWith (n : Nat) (text : String) : strip (paintWith n text) = strip text := by
  have hp := visible_paintWith_append n text []
  rw [List.append_nil, visible, List.append_nil] at hp
  rw [strip, hp, strip]

example : strip (paintWith 31 "a\x1b[0mb\x1b[") = "ab" := by decide +kernel

/-- A stripped text has no escape sequence, and only texts with one are changed. Stripping goes part
by part through a text whose parts end their escape sequences, and it undoes all painting. -/
theorem strip_undoes_paint (text : String) :
    Gives (fun text => some (nextVisible text)) text.toList (strip text).toList ∧
      escape ∉ (strip text).toList ∧ (strip text = text ↔ escape ∉ text.toList) ∧
      strip (strip text) = strip text ∧
      ((∀ rest, strip (text ++ rest) = strip text ++ strip rest) ↔ EndsEscapes text.toList) ∧
      (∀ n, strip (paintWith n text) = strip text) ∧
      ∀ style : Style, style.paint text = paintWith style.number text := by
  refine ⟨?_, escape_not_mem_strip text, strip_eq_iff, strip_eq_iff.2 (escape_not_mem_strip text),
    strip_append_iff, fun n => strip_paintWith n text, fun _ => rfl⟩
  rw [strip, String.toList_ofList]
  exact gives_visible text.toList

end Accumulator.Text
