import Accumulator.Text.Pieces
import Mathlib

namespace Accumulator.Text

variable {α : Type}

/-- Pieces that each end at a delimiter, put together again. -/
def closed (d : α) (pieces : List (List α)) : List α := pieces.flatMap (· ++ [d])

@[simp] theorem closed_nil (d : α) : closed d [] = [] := rfl

@[simp] theorem closed_cons (d : α) (piece : List α) (pieces : List (List α)) :
    closed d (piece :: pieces) = piece ++ d :: closed d pieces := by
  simp [closed]

theorem eq_false_of_mem_splitOnP {p : α → Bool} {text piece : List α} {c : α}
    (h : piece ∈ text.splitOnP p) (hc : c ∈ piece) : p c = false := by
  induction text generalizing piece with
  | nil =>
    rw [List.splitOnP_nil, List.mem_singleton] at h
    subst h
    cases hc
  | cons d text ih =>
    rw [List.splitOnP_cons_eq_if_modifyHead] at h
    split at h
    · rcases List.mem_cons.1 h with rfl | h
      · cases hc
      · exact ih h hc
    · next hd =>
      obtain ⟨first, rest, hs⟩ := List.exists_cons_of_ne_nil (List.splitOnP_ne_nil p text)
      rw [hs] at ih h
      rw [List.modifyHead_cons] at h
      rcases List.mem_cons.1 h with rfl | h
      · rcases List.mem_cons.1 hc with rfl | hc
        · exact Bool.eq_false_iff.2 hd
        · exact ih List.mem_cons_self hc
      · exact ih (List.mem_cons_of_mem _ h) hc

theorem eq_of_nextPiece? {p : α → Bool} {text piece rest : List α}
    (h : nextPiece? p text = some (piece, rest)) :
    (∀ c ∈ piece, p c = false) ∧
      ((text = piece ∧ rest = []) ∨ ∃ d, p d = true ∧ text = piece ++ d :: rest) := by
  cases text with
  | nil => cases h
  | cons c text =>
    obtain ⟨rfl, rfl⟩ := Prod.mk.inj (Option.some.inj h)
    refine ⟨fun d hd => by simpa using List.mem_takeWhile_imp hd, ?_⟩
    have ht := List.takeWhile_append_dropWhile (p := (!p ·)) (l := c :: text)
    cases hd : (c :: text).dropWhile (!p ·) with
    | nil =>
      rw [hd, List.append_nil] at ht
      exact Or.inl ⟨ht.symm, rfl⟩
    | cons d rest =>
      rw [hd] at ht
      have hn := List.head_dropWhile_not (!p ·) (l := c :: text) (by rw [hd]; exact List.cons_ne_nil _ _)
      exact Or.inr ⟨d, by simpa [hd] using hn, ht.symm⟩

theorem pieces_nil (p : α → Bool) : pieces p [] = [] := by
  rw [pieces]
  rfl

theorem pieces_of_nextPiece? {p : α → Bool} {text piece rest : List α}
    (h : nextPiece? p text = some (piece, rest)) : pieces p text = piece :: pieces p rest := by
  rw [pieces, h]

theorem pieces_eq_nil_iff {p : α → Bool} {text : List α} : pieces p text = [] ↔ text = [] := by
  cases text with
  | nil => exact iff_of_true (pieces_nil p) rfl
  | cons c text =>
    rw [pieces_of_nextPiece? rfl]
    exact iff_of_false (List.cons_ne_nil _ _) (List.cons_ne_nil _ _)

theorem length_pieces_le (p : α → Bool) (text : List α) :
    (pieces p text).length ≤ text.length := by
  induction text using pieces.induct p with
  | case1 text hn =>
    rw [pieces, hn]
    exact Nat.zero_le _
  | case2 text piece rest hn ih =>
    have hlt := length_lt_of_nextPiece? hn
    rw [pieces_of_nextPiece? hn, List.length_cons]
    omega

/-- A text that is cut at every delimiter has all its pieces, and an empty one where nothing stands
behind the last delimiter. -/
theorem splitOnP_eq_pieces (p : α → Bool) (text : List α) :
    text.splitOnP p = pieces p text ++ if text.getLast?.all p then [[]] else [] := by
  induction text using pieces.induct p with
  | case1 text hn =>
    cases text with
    | nil => rw [List.splitOnP_nil, pieces_nil]; rfl
    | cons c text => cases hn
  | case2 text piece rest hn ih =>
    obtain ⟨hp, ⟨rfl, rfl⟩ | ⟨d, hd, rfl⟩⟩ := eq_of_nextPiece? hn
    · have hne : text ≠ [] := by
        rintro rfl
        cases hn
      have hl : text.getLast?.all p = false := by
        rw [List.getLast?_eq_some_getLast hne]
        exact hp _ (List.getLast_mem hne)
      rw [List.splitOnP_eq_singleton hp, pieces_of_nextPiece? hn, pieces_nil, hl]
      rfl
    · have hl : (piece ++ d :: rest).getLast?.all p = rest.getLast?.all p := by
        rw [List.getLast?_append_cons, List.getLast?_cons]
        cases rest.getLast? with
        | none => exact hd
        | some c => rfl
      rw [List.splitOnP_append_cons_of_forall_mem hp d hd, ih, pieces_of_nextPiece? hn, hl]
      rfl

theorem splitOnP_eq_pieces_append (p : α → Bool) (text : List α) :
    ∃ ending, (ending = [] ∨ ending = [[]]) ∧ text.splitOnP p = pieces p text ++ ending := by
  refine ⟨_, ?_, splitOnP_eq_pieces p text⟩
  split
  · exact Or.inr rfl
  · exact Or.inl rfl

theorem intercalate_append_cons (d : α) (before after : List (List α))
    (piece : List α) :
    ∃ rest, [d].intercalate (before ++ piece :: after) = closed d before ++ piece ++ rest := by
  induction before with
  | nil =>
    cases after with
    | nil => exact ⟨[], by simp⟩
    | cons next after => exact ⟨d :: [d].intercalate (next :: after), by simp⟩
  | cons first before ih =>
    obtain ⟨rest, hr⟩ := ih
    refine ⟨rest, ?_⟩
    rw [List.cons_append, List.intercalate_cons_of_ne_nil (by simp), hr]
    simp

theorem splitOnP_congr {p q : α → Bool} {text : List α} (h : ∀ c ∈ text, p c = q c) :
    text.splitOnP p = text.splitOnP q := by
  induction text with
  | nil => rfl
  | cons c text ih =>
    rw [List.forall_mem_cons] at h
    rw [List.splitOnP_cons_eq_if_modifyHead, List.splitOnP_cons_eq_if_modifyHead, h.1, ih h.2]

theorem splitOnP_intercalate {p : α → Bool} {d : α} (hd : p d = true) {texts : List (List α)}
    (h : texts ≠ []) :
    ([d].intercalate texts).splitOnP p = texts.flatMap (List.splitOnP p) := by
  induction texts with
  | nil => exact absurd rfl h
  | cons text texts ih =>
    cases texts with
    | nil => simp
    | cons next texts =>
      rw [List.intercalate_cons_cons, List.append_assoc, List.singleton_append,
        List.splitOnP_append_cons _ _ hd, ih (List.cons_ne_nil _ _), ← List.flatMap_cons]

theorem filterMap_splitOnP_intercalate {β : Type} {p : α → Bool} {d : α} (hd : p d = true)
    {f : List α → Option β} (hf : f [] = none) (texts : List (List α)) :
    (([d].intercalate texts).splitOnP p).filterMap f =
      (texts.flatMap (List.splitOnP p)).filterMap f := by
  cases texts with
  | nil => exact List.filterMap_cons_none hf
  | cons text texts => rw [splitOnP_intercalate hd (List.cons_ne_nil _ _)]

theorem append_cons_inj {d : α} {s t u v : List α} (hs : d ∉ s) (ht : d ∉ t)
    (h : s ++ d :: u = t ++ d :: v) : s = t ∧ u = v := by
  induction s generalizing t with
  | nil =>
    cases t with
    | nil => exact ⟨rfl, List.tail_eq_of_cons_eq h⟩
    | cons c t => exact absurd (List.head_eq_of_cons_eq h ▸ List.mem_cons_self) ht
  | cons c s ih =>
    cases t with
    | nil => exact absurd (List.head_eq_of_cons_eq h ▸ List.mem_cons_self) hs
    | cons b t =>
      obtain ⟨rfl, htail⟩ := List.cons.inj h
      rw [List.mem_cons, not_or] at hs ht
      obtain ⟨rfl, rfl⟩ := ih hs.2 ht.2 htail
      exact ⟨rfl, rfl⟩

theorem closed_inj {d : α} {xs ys : List (List α)} (hx : ∀ x ∈ xs, d ∉ x) (hy : ∀ y ∈ ys, d ∉ y)
    (h : closed d xs = closed d ys) : xs = ys := by
  induction xs generalizing ys with
  | nil =>
    cases ys with
    | nil => rfl
    | cons y ys => simp at h
  | cons x xs ih =>
    cases ys with
    | nil => simp at h
    | cons y ys =>
      rw [List.forall_mem_cons] at hx hy
      rw [closed_cons, closed_cons] at h
      obtain ⟨rfl, hrest⟩ := append_cons_inj hx.1 hy.1 h
      rw [ih hx.2 hy.2 hrest]

variable [BEq α] [LawfulBEq α] {d : α}

theorem not_mem_of_mem_splitOn {text piece : List α} (h : piece ∈ text.splitOn d) : d ∉ piece := by
  rw [List.splitOn_eq_splitOnP] at h
  intro hd
  simpa using eq_false_of_mem_splitOnP h hd

theorem not_mem_of_splitOn_eq {text piece : List α} {before after : List (List α)}
    (h : text.splitOn d = before ++ piece :: after) : (∀ other ∈ before, d ∉ other) ∧ d ∉ piece := by
  have hm {other : List α} (ho : other ∈ before ++ piece :: after) : d ∉ other :=
    not_mem_of_mem_splitOn (h ▸ ho)
  exact ⟨fun other ho => hm (List.mem_append_left _ ho),
    hm (List.mem_append_right _ List.mem_cons_self)⟩

theorem exists_eq_closed_append {text piece : List α} {before after : List (List α)}
    (h : text.splitOn d = before ++ piece :: after) :
    ∃ rest, text = closed d before ++ piece ++ rest := by
  obtain ⟨rest, hr⟩ := intercalate_append_cons d before after piece
  rw [← h, List.intercalate_splitOn] at hr
  exact ⟨rest, hr⟩

theorem count_closed {pieces : List (List α)} (h : ∀ piece ∈ pieces, d ∉ piece) :
    (closed d pieces).count d = pieces.length := by
  induction pieces with
  | nil => rfl
  | cons piece pieces ih =>
    rw [List.forall_mem_cons] at h
    rw [closed_cons, List.count_append, List.count_eq_zero.2 h.1, List.count_cons_self, ih h.2,
      Nat.zero_add, List.length_cons]

end Accumulator.Text
