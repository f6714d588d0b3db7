import Accumulator.Assembly
import Mathlib

namespace Accumulator.Text

/-- The maximal runs of characters that are not blank. -/
def runs (text : List Char) : List (List Char) := (text.splitOnP isBlank).filter (· ≠ [])

theorem eq_false_of_dropWhile {p : Char → Bool} {text rest : List Char} {c : Char}
    (h : text.dropWhile p = c :: rest) : p c = false := by
  have hn : text.dropWhile p ≠ [] := by
    rw [h]
    exact List.cons_ne_nil _ _
  simpa [h] using List.head_dropWhile_not p hn

theorem runs_append_cons {c : Char} (hc : isBlank c = true) (s t : List Char) :
    runs (s ++ c :: t) = runs s ++ runs t := by
  rw [runs, List.splitOnP_append_cons s t hc, List.filter_append]
  rfl

theorem runs_cons_blank {c : Char} (hc : isBlank c = true) (text : List Char) :
    runs (c :: text) = runs text :=
  runs_append_cons hc [] text

theorem runs_dropWhile (text : List Char) : runs (text.dropWhile isBlank) = runs text := by
  induction text with
  | nil => rfl
  | cons c text ih =>
    cases hc : isBlank c with
    | true => rw [List.dropWhile_cons_of_pos hc, ih, runs_cons_blank hc]
    | false => rw [List.dropWhile_cons_of_neg (Bool.eq_false_iff.1 hc)]

theorem runs_of_not_blank {run : List Char} (hne : run ≠ [])
    (hr : ∀ c ∈ run, isBlank c = false) : runs run = [run] := by
  rw [runs, List.splitOnP_eq_singleton hr]
  simp [hne]

theorem not_blank_of_mem_run {c : Char} (hc : isBlank c = false) (text : List Char) :
    ∀ d ∈ c :: text.takeWhile (!isBlank ·), isBlank d = false := by
  intro d hd
  rcases List.mem_cons.1 hd with rfl | hd
  · exact hc
  · simpa using List.mem_takeWhile_imp hd

theorem runs_cons_not_blank {c : Char} (hc : isBlank c = false) (text : List Char) :
    runs (c :: text) =
      (c :: text.takeWhile (!isBlank ·)) :: runs (text.dropWhile (!isBlank ·)) := by
  have hr := not_blank_of_mem_run hc text
  have ht : c :: text = (c :: text.takeWhile (!isBlank ·)) ++ text.dropWhile (!isBlank ·) := by
    rw [List.cons_append, List.takeWhile_append_dropWhile]
  rw [ht]
  cases hd : text.dropWhile (!isBlank ·) with
  | nil => rw [List.append_nil]; exact runs_of_not_blank (List.cons_ne_nil _ _) hr
  | cons d rest =>
    have hb : isBlank d = true := by
      simpa using eq_false_of_dropWhile hd
    rw [runs_append_cons hb, runs_of_not_blank (List.cons_ne_nil _ _) hr, runs_cons_blank hb]
    rfl

/-- Reading words off a text finds its runs. -/
theorem map_text_words (offset : Nat) (text : List Char) :
    (words offset text).map Word.text = (runs text).map String.ofList := by
  induction offset, text using words.induct with
  | case1 offset text hd =>
    rw [words, ← runs_dropWhile, hd]
    rfl
  | case2 offset text start c rest hd run ih =>
    have hc := eq_false_of_dropWhile hd
    rw [words, ← runs_dropWhile text, hd, runs_cons_not_blank hc, List.map_cons, List.map_cons,
      ← ih]

theorem runs_trim (text : List Char) : runs (trim text) = runs text := by
  have he (rest : List Char) : runs (rest.dropWhile isBlank).reverse = runs rest.reverse := by
    induction rest with
    | nil => rfl
    | cons c rest ih =>
      cases hc : isBlank c with
      | true =>
        rw [List.dropWhile_cons_of_pos hc, ih, List.reverse_cons, runs_append_cons hc]
        exact (List.append_nil _).symm
      | false => rw [List.dropWhile_cons_of_neg (Bool.eq_false_iff.1 hc)]
  rw [trim, he, List.reverse_reverse, runs_dropWhile]

theorem runs_eq_nil_iff {text : List Char} : runs text = [] ↔ text.all isBlank = true := by
  rw [← runs_dropWhile, List.all_eq_true]
  cases hd : text.dropWhile isBlank with
  | nil => exact iff_of_true rfl (List.dropWhile_eq_nil_iff.1 hd)
  | cons c rest =>
    rw [runs_cons_not_blank (eq_false_of_dropWhile hd)]
    refine iff_of_false (List.cons_ne_nil _ _) fun ha => ?_
    rw [List.dropWhile_eq_nil_iff.2 ha] at hd
    cases hd

theorem trim_eq_nil_iff {text : List Char} : trim text = [] ↔ text.all isBlank = true := by
  constructor
  · intro ht
    rw [← runs_eq_nil_iff, ← runs_trim, ht]
    rfl
  · intro ha
    rw [trim, List.dropWhile_eq_nil_iff.2 (List.all_eq_true.1 ha)]
    rfl

end Accumulator.Text

namespace Accumulator.Assembly

open Text

theorem runs_dropReturn (text : List Char) : runs (dropReturn text) = runs text := by
  unfold dropReturn
  split
  · next h =>
    obtain ⟨s, rfl⟩ := List.getLast?_eq_some_iff.1 h
    rw [List.dropLast_concat, runs_append_cons (by decide)]
    exact (List.append_nil _).symm
  · rfl

end Accumulator.Assembly
