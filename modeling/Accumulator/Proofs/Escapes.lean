import Accumulator.Text.Style
import Mathlib

namespace Accumulator.Text

def opens (hidden : Bool) (c : Char) : Bool := if hidden then c != 'm' else c == escape

/-- Whether an escape sequence is left open at the end of a text. -/
def openAfter (hidden : Bool) (text : List Char) : Bool := text.foldl opens hidden

theorem visible_cons (hidden : Bool) (c : Char) (text : List Char) :
    visible hidden (c :: text) =
      (if hidden || c == escape then [] else [c]) ++ visible (opens hidden c) text := by
  cases hidden with
  | true => rfl
  | false =>
    by_cases hc : c = escape
    · subst hc
      rfl
    · have hb : (c == escape) = false := beq_false_of_ne hc
      simp [visible, opens, hc, hb]

theorem visible_append (hidden : Bool) (s t : List Char) :
    visible hidden (s ++ t) = visible hidden s ++ visible (openAfter hidden s) t := by
  induction s generalizing hidden with
  | nil => rfl
  | cons c s ih =>
    rw [List.cons_append, visible_cons, visible_cons, ih, List.append_assoc]
    rfl

theorem openAfter_append (hidden : Bool) (s t : List Char) :
    openAfter hidden (s ++ t) = openAfter (openAfter hidden s) t :=
  List.foldl_append

theorem escape_not_mem_visible (hidden : Bool) (text : List Char) :
    escape ∉ visible hidden text := by
  induction text generalizing hidden with
  | nil => exact List.not_mem_nil
  | cons c text ih =>
    rw [visible_cons, List.mem_append, not_or]
    refine ⟨?_, ih _⟩
    split
    · exact List.not_mem_nil
    · next h =>
      rw [List.mem_singleton]
      rintro rfl
      simp at h

theorem escape_not_mem_strip (text : String) : escape ∉ (strip text).toList := by
  rw [strip, String.toList_ofList]
  exact escape_not_mem_visible false text.toList

/-- Every escape sequence that starts in the text ends in it. -/
def EndsEscapes (text : List Char) : Prop :=
  ∀ before after, text = before ++ escape :: after → 'm' ∈ after

theorem openAfter_eq_true_iff {text : List Char} : openAfter false text = true ↔
    ∃ before after, text = before ++ escape :: after ∧ 'm' ∉ after := by
  constructor
  · intro h
    induction text using List.reverseRecOn with
    | nil => cases h
    | append_singleton text c ih =>
      rw [openAfter_append] at h
      cases hb : openAfter false text with
      | false =>
        rw [hb] at h
        have hc : c = escape := by simpa [openAfter, opens] using h
        exact ⟨text, [], by rw [hc], List.not_mem_nil⟩
      | true =>
        rw [hb] at h
        have hc : c ≠ 'm' := by simpa [openAfter, opens] using h
        obtain ⟨before, after, rfl, hm⟩ := ih hb
        refine ⟨before, after ++ [c], by rw [List.append_assoc, List.cons_append], ?_⟩
        rw [List.mem_append, List.mem_singleton, not_or]
        exact ⟨hm, Ne.symm hc⟩
  · rintro ⟨before, after, rfl, hm⟩
    -- an escape opens a sequence even inside another, as it does not end that one
    have ho : opens (openAfter false before) escape = true := by
      cases openAfter false before <;> rfl
    rw [openAfter_append, openAfter, List.foldl_cons, ho]
    induction after with
    | nil => rfl
    | cons c after ih =>
      rw [List.mem_cons, not_or] at hm
      have hc : opens true c = true := bne_iff_ne.2 (Ne.symm hm.1)
      rw [List.foldl_cons, hc, ih hm.2]

theorem endsEscapes_iff {text : List Char} : EndsEscapes text ↔ openAfter false text = false := by
  rw [← Bool.not_eq_true, openAfter_eq_true_iff, EndsEscapes]
  push Not
  exact Iff.rfl

instance (text : List Char) : Decidable (EndsEscapes text) := decidable_of_iff _ endsEscapes_iff.symm

theorem endsEscapes_of_plain {text : List Char} (h : escape ∉ text) : EndsEscapes text := by
  rintro before after rfl
  simp at h

theorem visible_append_of_endsEscapes {s : List Char} (h : EndsEscapes s) (t : List Char) :
    visible false (s ++ t) = visible false s ++ visible false t := by
  rw [visible_append, endsEscapes_iff.1 h]

theorem visible_reset_append (hidden : Bool) (text : List Char) :
    visible hidden (reset ++ text) = visible false text := by
  cases hidden <;> rfl

theorem visible_true_append {code : List Char} (h : 'm' ∉ code) (text : List Char) :
    visible true (code ++ 'm' :: text) = visible false text := by
  induction code with
  | nil => rfl
  | cons c code ih =>
    rw [List.mem_cons, not_or] at h
    have hc : (c != 'm') = true := bne_iff_ne.2 (Ne.symm h.1)
    rw [List.cons_append, visible, if_pos rfl, hc, ih h.2]

theorem visible_of_plain {text : List Char} (h : escape ∉ text) : visible false text = text := by
  induction text with
  | nil => rfl
  | cons c text ih =>
    rw [List.mem_cons, not_or] at h
    rw [visible, if_neg Bool.false_ne_true, if_neg (Ne.symm h.1), ih h.2]

theorem strip_of_plain {text : String} (h : escape ∉ text.toList) : strip text = text := by
  rw [strip, visible_of_plain h, String.ofList_toList]

theorem head?_visible {c : Char} {text : List Char} (h : text.head? = some c) (hc : c ≠ escape) :
    (visible false text).head? = some c := by
  obtain ⟨rest, rfl⟩ := List.head?_eq_some_iff.1 h
  rw [visible, if_neg Bool.false_ne_true, if_neg hc]
  rfl

theorem not_mem_toString {c : Char} (hc : c.isDigit = false) (n : Nat) :
    c ∉ (toString n).toList := by
  intro h
  have hn : (toString n).toList = Nat.toDigits 10 n := Nat.toList_repr
  rw [hn] at h
  rw [Nat.isDigit_of_mem_toDigits (by decide) (by decide) h] at hc
  cases hc

section Paint

variable (n : Nat)

theorem visible_openingOf_append (text : List Char) :
    visible false (openingOf n ++ text) = visible false text := by
  have hm : 'm' ∉ '[' :: (toString n).toList := by
    rw [List.mem_cons, not_or]
    exact ⟨by decide, not_mem_toString rfl n⟩
  have ho : openingOf n ++ text = escape :: ('[' :: (toString n).toList ++ 'm' :: text) := by
    simp [openingOf]
  rw [ho, visible, if_neg Bool.false_ne_true, if_pos rfl, visible_true_append hm]

theorem visible_reopenWith (hidden : Bool) (text : List Char) :
    visible hidden (reopenWith (openingOf n) text) = visible hidden text := by
  induction text using reopenWith.induct generalizing hidden with
  | case1 text ih =>
    have ht : '\x1b' :: '[' :: '0' :: 'm' :: text = reset ++ text := rfl
    rw [reopenWith, ht, List.append_assoc, visible_reset_append, visible_reset_append,
      visible_openingOf_append, ih]
  | case2 c text hc ih =>
    rw [reopenWith]
    · rw [visible_cons, visible_cons, ih]
    · exact hc
  | case3 => rfl

/-- Paint is hidden, but it also ends the escape sequence that the text may leave open. -/
theorem visible_paintWith_append (text : String) (rest : List Char) :
    visible false ((paintWith n text).toList ++ rest) =
      visible false text.toList ++ visible false rest := by
  rw [paintWith, String.toList_ofList, List.append_assoc, List.append_assoc,
    visible_openingOf_append, visible_append, visible_reopenWith, visible_reset_append]

variable {n}

theorem reopenWith_of_plain (opening : List Char) {text : List Char} (h : escape ∉ text) :
    reopenWith opening text = text := by
  induction text with
  | nil => rfl
  | cons c text ih =>
    rw [List.mem_cons, not_or] at h
    rw [reopenWith, ih h.2]
    rintro rest rfl
    exact absurd rfl h.1

theorem mem_reopenWith_of_mem (opening : List Char) {text : List Char} (h : escape ∈ text) :
    escape ∈ reopenWith opening text := by
  induction text using reopenWith.induct with
  | case1 text ih => exact List.mem_cons_self
  | case2 c text hc ih =>
    rw [reopenWith]
    · rcases List.mem_cons.1 h with rfl | h
      · exact List.mem_cons_self
      · exact List.mem_cons_of_mem _ (ih h)
    · exact hc
  | case3 => exact h

/-- Paint does not make a text the same as another that has no escape sequences. -/
theorem paintWith_eq_iff {text plain : String} (h : escape ∉ plain.toList) :
    paintWith n text = paintWith n plain ↔ text = plain := by
  refine ⟨fun he => ?_, fun he => by rw [he]⟩
  have hw : reopenWith (openingOf n) text.toList = plain.toList := by
    rw [paintWith, paintWith, String.ofList_inj, List.append_left_inj, List.append_right_inj,
      reopenWith_of_plain _ h] at he
    exact he
  have hn : escape ∉ text.toList := fun hm => h (hw ▸ mem_reopenWith_of_mem _ hm)
  rw [reopenWith_of_plain _ hn] at hw
  exact String.toList_inj.1 hw

end Paint

end Accumulator.Text
