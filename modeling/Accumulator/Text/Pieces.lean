namespace Accumulator.Text

variable {α : Type}

/-- What stands before the first delimiter, and what stands after it. There is no piece to take
from an empty text, so a delimiter at the very end ends a piece without starting another. -/
def nextPiece? (isDelimiter : α → Bool) (text : List α) : Option (List α × List α) :=
  match text with
  | [] => none
  | _ => some (text.takeWhile (!isDelimiter ·), (text.dropWhile (!isDelimiter ·)).tail)

theorem length_lt_of_nextPiece? {isDelimiter : α → Bool} {text piece rest : List α}
    (h : nextPiece? isDelimiter text = some (piece, rest)) : rest.length < text.length := by
  cases text with
  | nil => simp [nextPiece?] at h
  | cons c text =>
    simp only [nextPiece?, Option.some.injEq, Prod.mk.injEq] at h
    rw [← h.2, List.length_tail, List.length_cons]
    have hle := (List.dropWhile_sublist (l := c :: text) (!isDelimiter ·)).length_le
    rw [List.length_cons] at hle
    omega

def pieces (isDelimiter : α → Bool) (text : List α) : List (List α) :=
  match _h : nextPiece? isDelimiter text with
  | none => []
  | some (piece, rest) => piece :: pieces isDelimiter rest
termination_by text.length
decreasing_by exact length_lt_of_nextPiece? _h

end Accumulator.Text
