import Accumulator.Proofs.Commands
import Accumulator.Proofs.Reading

namespace Accumulator

namespace Text

def advance (isDelimiter : Char → Bool) (cursor : Nat) : List Char → Nat
  | [] => cursor
  | c :: text => if isDelimiter c then cursor else advance isDelimiter (cursor + c.utf8Size) text

/-- Reads the next piece of a text behind a cursor, which is a byte of the text. The cursor is moved
by one byte more, whether a delimiter stands there or not. -/
def readPiece? (isDelimiter : Char → Bool) (text : String) (cursor : Nat) :
    Option (Option String × Nat) :=
  if text.utf8ByteSize ≤ cursor then some (none, cursor)
  else do
    let rest ← slice? text cursor text.utf8ByteSize
    let stop := advance isDelimiter cursor rest.toList
    some (slice? text cursor stop, stop + 1)

variable {isDelimiter : Char → Bool}

/-- The pieces that are left of a text behind a cursor. There are none behind the byte which the
cursor reaches from the end of the text. -/
def PiecesLeft (isDelimiter : Char → Bool) (text : String) (cursor : Nat) (given : List String) :
    Prop :=
  (∃ before rest : String, text = before ++ rest ∧ cursor = before.utf8ByteSize ∧
    given = (pieces isDelimiter rest.toList).map String.ofList) ∨
  cursor = text.utf8ByteSize + 1 ∧ given = []

theorem advance_eq (isDelimiter : Char → Bool) (cursor : Nat) (text : List Char) :
    advance isDelimiter cursor text = cursor + byteLength (text.takeWhile (!isDelimiter ·)) := by
  induction text generalizing cursor with
  | nil => rfl
  | cons c text ih =>
    cases hc : isDelimiter c with
    | true => simp [advance, hc]
    | false => simp [advance, hc, ih, Nat.add_assoc]

theorem readPiece?_of_end {text : String} {cursor : Nat} (h : text.utf8ByteSize ≤ cursor) :
    readPiece? isDelimiter text cursor = some (none, cursor) :=
  if_pos h

theorem takeWhile_of_nextPiece? {text piece left : List Char}
    (h : nextPiece? isDelimiter text = some (piece, left)) :
    text.takeWhile (!isDelimiter ·) = piece := by
  cases text with
  | nil => cases h
  | cons c text => exact congrArg Prod.fst (Option.some.inj h)

theorem readPiece?_of_nextPiece? {before rest : String} {piece left : List Char}
    (h : nextPiece? isDelimiter rest.toList = some (piece, left)) :
    readPiece? isDelimiter (before ++ rest) before.utf8ByteSize =
      some (some (String.ofList piece), before.utf8ByteSize + byteLength piece + 1) := by
  have hne : rest ≠ "" := by
    rintro rfl
    cases h
  have hpos : 0 < rest.utf8ByteSize := Nat.pos_of_ne_zero (mt String.utf8ByteSize_eq_zero_iff.1 hne)
  have hinside : ¬ (before ++ rest).utf8ByteSize ≤ before.utf8ByteSize := by
    rw [String.utf8ByteSize_append]
    omega
  have hpiece := takeWhile_of_nextPiece? h
  have hrest : rest = String.ofList piece ++
      String.ofList (rest.toList.dropWhile (!isDelimiter ·)) := by
    rw [← String.ofList_append, ← hpiece, List.takeWhile_append_dropWhile, String.ofList_toList]
  have hslice : slice? (before ++ rest) before.utf8ByteSize
      (before.utf8ByteSize + byteLength piece) = some (String.ofList piece) := by
    rw [hrest, ← String.append_assoc, ← utf8ByteSize_ofList piece]
    exact slice?_middle _ _ _
  rw [readPiece?, if_neg hinside, slice?_rest, Option.bind_eq_bind, Option.bind_some]
  dsimp only
  rw [advance_eq, hpiece, hslice]

theorem piecesLeft_of_nextPiece? (hd : ∀ c, isDelimiter c = true → c.utf8Size = 1)
    {before rest : String} {piece left : List Char}
    (h : nextPiece? isDelimiter rest.toList = some (piece, left)) :
    PiecesLeft isDelimiter (before ++ rest) (before.utf8ByteSize + byteLength piece + 1)
      ((pieces isDelimiter left).map String.ofList) := by
  obtain ⟨-, ⟨hp, rfl⟩ | ⟨d, hdelimiter, hp⟩⟩ := eq_of_nextPiece? h
  · refine Or.inr ⟨?_, by rw [pieces_nil]; rfl⟩
    rw [String.utf8ByteSize_append, ← hp, byteLength_toList]
  · refine Or.inl ⟨before ++ String.ofList (piece ++ [d]), String.ofList left, ?_, ?_, ?_⟩
    · rw [String.append_assoc, ← String.ofList_append, List.append_assoc, List.singleton_append,
        ← hp, String.ofList_toList]
    · rw [String.utf8ByteSize_append, utf8ByteSize_ofList, byteLength_append, byteLength_cons,
        byteLength_nil, hd d hdelimiter, Nat.add_assoc]
    · rw [String.toList_ofList]

/-- A call takes the first of the pieces that are left. -/
theorem keeps_piecesLeft (hd : ∀ c, isDelimiter c = true → c.utf8Size = 1) (text : String) :
    Keeps (readPiece? isDelimiter text) (PiecesLeft isDelimiter text) := by
  rintro cursor given (⟨before, rest, rfl, rfl, rfl⟩ | ⟨rfl, rfl⟩)
  · cases hn : nextPiece? isDelimiter rest.toList with
    | none =>
      have hp : pieces isDelimiter rest.toList = [] := by rw [pieces, hn]
      have hr : rest = "" := String.toList_eq_nil_iff.1 (pieces_eq_nil_iff.1 hp)
      rw [hp]
      refine ⟨_, readPiece?_of_end ?_, Or.inl ⟨before, rest, rfl, rfl, ?_⟩⟩
      · rw [hr, String.append_empty]
      · rw [hp]
        rfl
    | some found =>
      obtain ⟨piece, left⟩ := found
      rw [pieces_of_nextPiece? hn]
      exact ⟨_, readPiece?_of_nextPiece? hn, piecesLeft_of_nextPiece? hd hn⟩
  · exact ⟨_, readPiece?_of_end (Nat.le_succ _), Or.inr ⟨rfl, rfl⟩⟩

theorem piecesLeft_start (text : String) :
    PiecesLeft isDelimiter text 0 ((pieces isDelimiter text.toList).map String.ofList) :=
  Or.inl ⟨"", text, String.empty_append.symm, rfl, rfl⟩

theorem PiecesLeft.inBounds {text : String} {cursor : Nat} {given : List String}
    (h : PiecesLeft isDelimiter text cursor given) :
    (⟨cursor⟩ : String.Pos.Raw).IsValid text ∨ cursor = text.utf8ByteSize + 1 := by
  obtain ⟨before, rest, rfl, rfl, -⟩ | ⟨rfl, -⟩ := h
  · exact Or.inl (isValid_append before rest)
  · exact Or.inr rfl

theorem PiecesLeft.eq_nil_iff {text : String} {cursor : Nat} {given : List String}
    (h : PiecesLeft isDelimiter text cursor given) : given = [] ↔ text.utf8ByteSize ≤ cursor := by
  obtain ⟨before, rest, rfl, rfl, rfl⟩ | ⟨rfl, rfl⟩ := h
  · rw [List.map_eq_nil_iff, pieces_eq_nil_iff, String.toList_eq_nil_iff,
      ← String.utf8ByteSize_eq_zero_iff, String.utf8ByteSize_append]
    omega
  · exact iff_of_true rfl (Nat.le_succ _)

end Text

namespace Debugger

open Text

def endsPiece (c : Char) : Bool := c = ';' || c = '\n'

def readScript? (script : String) (cursor : Nat) : Option (Option String × Nat) :=
  readPiece? endsPiece script cursor

theorem utf8Size_of_endsPiece (c : Char) (h : endsPiece c = true) : c.utf8Size = 1 := by
  simp only [endsPiece, Bool.or_eq_true, decide_eq_true_eq] at h
  rcases h with rfl | rfl <;> decide

theorem segments_eq_pieces (script : String) :
    segments script = pieces endsPiece script.toList ++
      if script = "" ∨ script.toList.getLast? = some ';' ∨ script.toList.getLast? = some '\n' then [[]]
      else [] := by
  have hl : script.toList.getLast?.all endsPiece = true ↔
      script = "" ∨ script.toList.getLast? = some ';' ∨ script.toList.getLast? = some '\n' := by
    cases hs : script.toList.getLast? with
    | none => exact iff_of_true rfl (Or.inl (by simpa using hs))
    | some c =>
      have hne : script ≠ "" := by
        rintro rfl
        cases hs
      simp [endsPiece, hne]
  simp only [← hl]
  exact splitOnP_eq_pieces endsPiece script.toList

/-- A cursor that goes over a script is always at a boundary of characters or one byte past the end.
It cuts out the segments of the script in order, but for an empty one at the very end, and gives
nothing from then on. -/
theorem cursor_cuts_script (script : String) :
    ∃ given,
      segments script = given ++
        (if script = "" ∨ script.toList.getLast? = some ';' ∨
          script.toList.getLast? = some '\n' then [[]] else []) ∧
      Entry.ofScript script = given.map .scripted ∧
      given.length ≤ script.utf8ByteSize ∧
      ∀ n, ∃ cursor next, after? (readScript? script) n 0 = some cursor ∧
        ((⟨cursor⟩ : String.Pos.Raw).IsValid script ∨ cursor = script.utf8ByteSize + 1) ∧
        readScript? script cursor = some (given[n]?.map String.ofList, next) ∧
        (given[n]? = none ↔ script.utf8ByteSize ≤ cursor) := by
  refine ⟨pieces endsPiece script.toList, segments_eq_pieces script, rfl, ?_, fun n => ?_⟩
  · have hb := (length_pieces_le endsPiece script.toList).trans (length_le_byteLength _)
    rwa [byteLength_toList] at hb
  · have hk := keeps_piecesLeft utf8Size_of_endsPiece script
    obtain ⟨cursor, ha, hl⟩ := hk.after? (piecesLeft_start script) n
    obtain ⟨next, hc, -⟩ := hk hl
    have hn := hl.eq_nil_iff
    rw [List.head?_drop, List.getElem?_map] at hc
    rw [List.drop_eq_nil_iff, List.length_map, ← List.getElem?_eq_none_iff] at hn
    exact ⟨cursor, next, ha, hl.inBounds, hc, hn⟩

example : readScript? ";é" 0 = some (some "", 1) ∧ readScript? ";é" 1 = some (some "é", 4) ∧
    readScript? ";é" 4 = some (none, 4) ∧ readScript? ";é" 2 = none := by
  decide +kernel

end Debugger

end Accumulator
