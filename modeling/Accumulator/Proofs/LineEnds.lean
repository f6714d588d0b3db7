import Accumulator.Proofs.Spans

namespace Accumulator

open Text

namespace Text

/-- A text with a carriage return before each of its line feeds. -/
def withReturns (text : List Char) : List Char :=
  text.flatMap fun c => if c = '\n' then ['\r', '\n'] else [c]

/-- Lines with a carriage return at the end of each but the last. -/
def returnLines : List (List Char) → List (List Char)
  | [] => []
  | [line] => [line]
  | line :: lines => (line ++ ['\r']) :: returnLines lines

theorem returnLines_modifyHead_cons (c : Char) (lines : List (List Char)) :
    returnLines (lines.modifyHead (List.cons c)) = (returnLines lines).modifyHead (List.cons c) := by
  cases lines with
  | nil => rfl
  | cons line lines => cases lines <;> rfl

theorem splitOn_withReturns (text : List Char) :
    (withReturns text).splitOn '\n' = returnLines (text.splitOn '\n') := by
  simp only [List.splitOn_eq_splitOnP]
  induction text with
  | nil => rfl
  | cons c text ih =>
    have hw : withReturns (c :: text) = (if c = '\n' then ['\r', '\n'] else [c]) ++ withReturns text :=
      List.flatMap_cons
    by_cases hc : c = '\n'
    · subst hc
      obtain ⟨line, lines, hs⟩ := List.exists_cons_of_ne_nil (List.splitOnP_ne_nil (· == '\n') text)
      have hn : ('\n' == '\n') = true := rfl
      have hr : ¬ ('\r' == '\n') = true := by decide
      rw [hw, if_pos rfl, List.cons_append, List.cons_append, List.nil_append,
        List.splitOnP_cons_eq_if_modifyHead, if_neg hr, List.splitOnP_cons_eq_if_modifyHead,
        if_pos hn, ih, List.splitOnP_cons_eq_if_modifyHead, if_pos hn, hs]
      rfl
    · have hn : ¬ (c == '\n') = true := by simpa using hc
      rw [hw, if_neg hc, List.singleton_append, List.splitOnP_cons_eq_if_modifyHead, if_neg hn, ih,
        List.splitOnP_cons_eq_if_modifyHead, if_neg hn, returnLines_modifyHead_cons]

namespace Word

def shift (k : Nat) (word : Word) : Word := { word with offset := word.offset + k }

theorem span_shift (k : Nat) (word : Word) :
    (word.shift k).span = ⟨word.span.start + k, word.span.stop + k⟩ := by
  rw [span, span, shift, Nat.add_right_comm]

end Word

theorem words_of_all_blank {text : List Char} (h : text.dropWhile isBlank = []) (offset : Nat) :
    words offset text = [] := by
  rw [words, h]

theorem words_add (offset k : Nat) (text : List Char) :
    words (offset + k) text = (words offset text).map (Word.shift k) := by
  induction offset, text using words.induct with
  | case1 offset text hd => rw [words_of_all_blank hd, words_of_all_blank hd]; rfl
  | case2 offset text start c rest hd run ih =>
    rw [words_of_dropWhile hd, words_of_dropWhile hd, List.map_cons]
    have hs (n : Nat) : offset + k + n = offset + n + k := Nat.add_right_comm offset k n
    rw [hs, hs, byteLength_append, ← Nat.add_assoc, ih]
    rfl

section

variable {α : Type} {p : α → Bool} {x : α}

theorem takeWhile_concat_of_neg (hx : p x = false) (xs : List α) :
    (xs ++ [x]).takeWhile p = xs.takeWhile p := by
  induction xs with
  | nil => simp [hx]
  | cons y xs ih => cases hy : p y <;> simp [hy, ih]

theorem dropWhile_concat_of_neg (hx : p x = false) (xs : List α) :
    (xs ++ [x]).dropWhile p = xs.dropWhile p ++ [x] := by
  induction xs with
  | nil => simp [hx]
  | cons y xs ih => cases hy : p y <;> simp [hy, ih]

end

theorem words_concat_blank {c : Char} (hc : isBlank c = true) (offset : Nat) (text : List Char) :
    words offset (text ++ [c]) = words offset text := by
  induction offset, text using words.induct with
  | case1 offset text hd =>
    have hn : (text ++ [c]).dropWhile isBlank = [] := by
      rw [List.dropWhile_append, hd]
      simp [hc]
    rw [words_of_all_blank hd, words_of_all_blank hn]
  | case2 offset text start d rest hd run ih =>
    have hn : (text ++ [c]).dropWhile isBlank = d :: (rest ++ [c]) := by
      rw [List.dropWhile_append, hd]
      rfl
    have hb : (text ++ [c]).takeWhile isBlank = text.takeWhile isBlank := by
      have hl := congrArg List.length (List.takeWhile_append_dropWhile (p := isBlank) (l := text))
      rw [hd, List.length_append, List.length_cons] at hl
      rw [List.takeWhile_append, if_neg (by omega)]
    have hr : (rest ++ [c]).takeWhile (!isBlank ·) = rest.takeWhile (!isBlank ·) :=
      takeWhile_concat_of_neg (by simp [hc]) rest
    have ht : (rest ++ [c]).dropWhile (!isBlank ·) = rest.dropWhile (!isBlank ·) ++ [c] :=
      dropWhile_concat_of_neg (by simp [hc]) rest
    rw [words_of_dropWhile hd, words_of_dropWhile hn, hb, hr, ht, byteLength_append, ← Nat.add_assoc]
    exact congrArg _ ih

end Text

namespace LoadError

def shift (k : Nat) (error : LoadError) : LoadError :=
  { error with span := ⟨error.span.start + k, error.span.stop + k⟩ }

end LoadError

namespace Assembly

theorem words_dropReturn (offset : Nat) (text : List Char) :
    words offset (dropReturn text) = words offset text := by
  unfold dropReturn
  split
  · next h =>
    obtain ⟨s, rfl⟩ := List.getLast?_eq_some_iff.1 h
    rw [List.dropLast_concat, words_concat_blank (by decide)]
  · rfl

variable (k line : Nat)

theorem readInteger_shift (opcode : Opcode) (operand : Word) :
    readInteger line opcode (operand.shift k) =
      (readInteger line opcode operand).mapError (LoadError.shift k) := by
  rw [readInteger, readInteger, Word.span_shift]
  change (Integer.readInt32 operand.text.toList).mapError _ = _
  cases Integer.readInt32 operand.text.toList <;> rfl

theorem readInstruction_shift (opcode : Opcode) (mnemonic : Word) (operands : List Word) :
    readInstruction line opcode (mnemonic.shift k) (operands.map (Word.shift k)) =
      (readInstruction line opcode mnemonic operands).mapError (LoadError.shift k) := by
  have hi (operand : Word) (build : Int32 → Instruction) :
      (readInteger line opcode (operand.shift k)).map build =
        ((readInteger line opcode operand).map build).mapError (LoadError.shift k) := by
    rw [readInteger_shift]
    cases readInteger line opcode operand <;> rfl
  unfold readInstruction
  generalize opcode.form = form
  cases form with
  | bare instruction => rfl
  | symbol build =>
    cases operands with
    | nil => simp only [List.map_nil, Word.span_shift]; rfl
    | cons operand operands => rfl
  | literal build | address build =>
    cases operands with
    | nil => simp only [List.map_nil, Word.span_shift]; rfl
    | cons operand operands => exact hi operand build

theorem readSlot_shift (ws : List Word) :
    readSlot line (ws.map (Word.shift k)) = (readSlot line ws).mapError (LoadError.shift k) := by
  cases ws with
  | nil => rfl
  | cons mnemonic operands =>
    have ht : (mnemonic.shift k).text = mnemonic.text := rfl
    rw [List.map_cons, readSlot, readSlot, ht]
    cases Opcode.ofMnemonic? mnemonic.text with
    | none => rfl
    | some opcode =>
      dsimp only
      rw [readInstruction_shift]
      cases readInstruction line opcode mnemonic operands <;> rfl

theorem line_le_of_readLines {line offset : Nat} {texts : List (List Char)} {error : LoadError}
    (h : readLines line offset texts = .error error) : line ≤ error.line := by
  obtain ⟨before, text, after, -, hs⟩ := readLines_error_cases h
  rw [readSlot_line hs]
  exact Nat.le_add_right _ _

theorem readLines_cons_shift {line offset k : Nat} {text moved : List Char}
    {texts others : List (List Char)} (hw : words offset moved = words offset text)
    (ht : readLines (line + 1) (offset + k + byteLength moved + 1) others =
      (readLines (line + 1) (offset + byteLength text + 1) texts).mapError fun error =>
        error.shift (k + 1 + (error.line - (line + 1)))) :
    readLines line (offset + k) (moved :: others) =
      (readLines line offset (text :: texts)).mapError fun error =>
        error.shift (k + (error.line - line)) := by
  have hm : readSlot line (words (offset + k) (dropReturn moved)) =
      (readSlot line (words offset (dropReturn text))).mapError (LoadError.shift k) := by
    rw [words_dropReturn, words_add, hw, readSlot_shift, words_dropReturn]
  cases hs : readSlot line (words offset (dropReturn text)) with
  | error e =>
    rw [hs] at hm
    rw [readLines_cons_error hs, readLines_cons_error hm, Except.mapError, readSlot_line hs,
      Nat.sub_self, Nat.add_zero]
  | ok slot =>
    rw [hs] at hm
    rw [readLines_cons_ok hs, readLines_cons_ok hm, ht]
    cases hl : readLines (line + 1) (offset + byteLength text + 1) texts with
    | ok slots => rfl
    | error e =>
      -- the return of this line is counted in the offset of the next, not by the lines after it
      have hle := line_le_of_readLines hl
      have hk : k + 1 + (e.line - (line + 1)) = k + (e.line - line) := by omega
      simp only [Except.mapError, Except.map, hk]

/-- The carriage returns are not read, but each makes all that follows its line stand one byte
later. -/
theorem readLines_returnLines (n line offset k : Nat) (texts : List (List Char)) :
    readLines line (offset + k) ((returnLines texts).take n) =
      (readLines line offset (texts.take n)).mapError fun error =>
        error.shift (k + (error.line - line)) := by
  induction texts generalizing n line offset k with
  | nil => cases n <;> rfl
  | cons text texts ih =>
    cases n with
    | zero => rfl
    | succ n =>
      cases texts with
      | nil =>
        rw [returnLines, List.take_succ_cons, List.take_nil]
        exact readLines_cons_shift rfl rfl
      | cons next texts =>
        have hr := words_concat_blank (c := '\r') (by decide) offset text
        rw [returnLines, List.take_succ_cons, List.take_succ_cons]
        · refine readLines_cons_shift hr ?_
          have ho : offset + k + byteLength (text ++ ['\r']) + 1 =
              offset + byteLength text + 1 + (k + 1) := by
            have hs : '\r'.utf8Size = 1 := by decide
            rw [byteLength_append, byteLength_cons, byteLength_nil, hs]
            omega
          rw [ho, ih]
        · simp

end Assembly

namespace Program

/-- A source text is read alike with either kind of line ends. Its fault moves by one byte for each
line before it. -/
theorem ofSource_withReturns (source : String) :
    ofSource (String.ofList (withReturns source.toList)) =
      (ofSource source).mapError fun error =>
        { error with
          span := ⟨error.span.start + (error.line - 1), error.span.stop + (error.line - 1)⟩ } := by
  have hr := Assembly.readLines_returnLines programSize 1 0 0 (Assembly.lines source)
  simp only [Nat.zero_add] at hr
  rw [ofSource, ofSource, Assembly.lines, String.toList_ofList, splitOn_withReturns]
  change (Assembly.readLines 1 0 ((returnLines (Assembly.lines source)).take programSize)).map _ = _
  rw [hr]
  cases Assembly.readLines 1 0 ((Assembly.lines source).take programSize) <;> rfl

end Program

end Accumulator
