import Accumulator.Proofs.LineEnds
import Accumulator.Proofs.Reading
import Accumulator.Proofs.RoundTrip

namespace Accumulator.Text

/-- The byte at which the first character with a property starts. -/
def findByte? (p : Char → Bool) : List Char → Option Nat
  | [] => none
  | c :: text => if p c then some 0 else (findByte? p text).map (c.utf8Size + ·)

/-- Reads the next word of a line behind a cursor, which is a byte of the line. The line starts at
byte `offset`. -/
def readWord? (line : String) (offset cursor : Nat) : Option (Option Word × Nat) := do
  let rest ← slice? line cursor line.utf8ByteSize
  let start := cursor + (rest.utf8ByteSize - byteLength (rest.toList.dropWhile isBlank))
  if line.utf8ByteSize ≤ start then some (none, cursor)
  else
    let tail ← slice? line start line.utf8ByteSize
    let stop := start + (findByte? isBlank tail.toList).getD (line.utf8ByteSize - start)
    let text ← slice? line start stop
    some (some ⟨text, offset + start⟩, stop)

/-- The words that are left of a line behind a cursor. -/
def WordsLeft (line : String) (offset cursor : Nat) (found : List Word) : Prop :=
  ∃ before rest : String, line = before ++ rest ∧ cursor = before.utf8ByteSize ∧
    found = words (offset + cursor) rest.toList

def Span.Covers (span : Span) (byte : Nat) : Prop := span.start ≤ byte ∧ byte < span.stop

def charAt? : List Char → Nat → Option Char
  | [], _ => none
  | c :: text, byte => if byte < c.utf8Size then some c else charAt? text (byte - c.utf8Size)

/-- The byte belongs to a character which is not blank. -/
def InRun (text : List Char) (byte : Nat) : Prop := ∃ c, charAt? text byte = some c ∧ isBlank c = false

theorem findByte?_getD (p : Char → Bool) (text : List Char) :
    (findByte? p text).getD (byteLength text) = byteLength (text.takeWhile (!p ·)) := by
  induction text with
  | nil => rfl
  | cons c text ih =>
    cases hc : p c with
    | true => simp [findByte?, hc]
    | false =>
      have ht : (c :: text).takeWhile (!p ·) = c :: text.takeWhile (!p ·) :=
        List.takeWhile_cons_of_pos (by simp [hc])
      rw [findByte?, if_neg (Bool.eq_false_iff.1 hc), ht, byteLength_cons, byteLength_cons, ← ih]
      exact Option.getD_map _ _ _

theorem byteLength_sub_dropWhile (p : Char → Bool) (text : List Char) :
    byteLength text - byteLength (text.dropWhile p) = byteLength (text.takeWhile p) := by
  have ht := congrArg byteLength (List.takeWhile_append_dropWhile (p := p) (l := text))
  rw [byteLength_append] at ht
  omega

theorem readWord?_of_blank {rest : String} (h : rest.toList.dropWhile isBlank = [])
    (before : String) (offset : Nat) :
    readWord? (before ++ rest) offset before.utf8ByteSize =
      some (none, before.utf8ByteSize) := by
  have hl : (before ++ rest).utf8ByteSize ≤
      before.utf8ByteSize + (rest.utf8ByteSize - byteLength []) := by
    rw [byteLength_nil, Nat.sub_zero, String.utf8ByteSize_append]
  rw [readWord?, slice?_rest, Option.bind_eq_bind, Option.bind_some, h]
  exact if_pos hl

theorem readWord?_of_dropWhile {rest : String} {c : Char} {cs : List Char}
    (h : rest.toList.dropWhile isBlank = c :: cs) (before : String) (offset : Nat) :
    let blanks := rest.toList.takeWhile isBlank
    let run := c :: cs.takeWhile (!isBlank ·)
    readWord? (before ++ rest) offset before.utf8ByteSize =
      some (some ⟨String.ofList run, offset + before.utf8ByteSize + byteLength blanks⟩,
        before.utf8ByteSize + byteLength (blanks ++ run)) := by
  intro blanks run
  let start := before.utf8ByteSize + byteLength blanks
  let prior := before ++ String.ofList blanks
  let behind := String.ofList (cs.dropWhile (!isBlank ·))
  have hstart : prior.utf8ByteSize = start := by
    rw [String.utf8ByteSize_append, utf8ByteSize_ofList]
  have htail : String.ofList (c :: cs) = String.ofList run ++ behind := by
    rw [← String.ofList_append, List.cons_append, List.takeWhile_append_dropWhile]
  have hline : before ++ rest = prior ++ String.ofList (c :: cs) := by
    rw [String.append_assoc, ← String.ofList_append, ← h, List.takeWhile_append_dropWhile,
      String.ofList_toList]
  have hrest : before.utf8ByteSize + (rest.utf8ByteSize - byteLength (c :: cs)) = start := by
    rw [← byteLength_toList rest, ← h, byteLength_sub_dropWhile]
  have hlong : ¬ (before ++ rest).utf8ByteSize ≤ start := by
    have hc := c.utf8Size_pos
    rw [hline, String.utf8ByteSize_append, utf8ByteSize_ofList, hstart, byteLength_cons]
    omega
  have hlen : (findByte? isBlank (c :: cs)).getD ((before ++ rest).utf8ByteSize - start) =
      byteLength run := by
    have hb : isBlank c = false := eq_false_of_dropWhile h
    rw [hline, String.utf8ByteSize_append, utf8ByteSize_ofList, hstart, Nat.add_sub_cancel_left,
      findByte?_getD, List.takeWhile_cons_of_pos (by simp [hb])]
  have hfrom : slice? (before ++ rest) start (before ++ rest).utf8ByteSize =
      some (String.ofList (c :: cs)) := by
    rw [hline, ← hstart]
    exact slice?_rest _ _
  have hrun : slice? (before ++ rest) start (start + byteLength run) =
      some (String.ofList run) := by
    rw [hline, htail, ← hstart, ← utf8ByteSize_ofList run, ← String.append_assoc]
    exact slice?_middle _ _ _
  rw [readWord?, slice?_rest, Option.bind_eq_bind, Option.bind_some, h]
  dsimp only
  rw [hrest, if_neg hlong, hfrom, Option.bind_some, String.toList_ofList, hlen, hrun,
    Option.bind_some, byteLength_append, ← Nat.add_assoc, ← Nat.add_assoc]

example : readWord? "é\u2003LDI\u00a0ü" 10 2 = some (some ⟨"LDI", 15⟩, 8) ∧
    readWord? "é\u2003LDI\u00a0ü" 10 1 = none := by
  decide +kernel

theorem keeps_wordsLeft (line : String) (offset : Nat) :
    Keeps (readWord? line offset) (WordsLeft line offset) := by
  rintro cursor found ⟨before, rest, rfl, rfl, rfl⟩
  cases hd : rest.toList.dropWhile isBlank with
  | nil =>
    have hw := words_of_all_blank hd (offset + before.utf8ByteSize)
    refine ⟨before.utf8ByteSize, ?_, before, rest, rfl, rfl, ?_⟩
    · rw [hw]
      exact readWord?_of_blank hd before offset
    · rw [hw]
      rfl
  | cons c cs =>
    let read := rest.toList.takeWhile isBlank ++ c :: cs.takeWhile (!isBlank ·)
    refine ⟨before.utf8ByteSize + byteLength read, ?_, before ++ String.ofList read,
      String.ofList (cs.dropWhile (!isBlank ·)), ?_, ?_, ?_⟩
    · rw [words_of_dropWhile hd]
      exact readWord?_of_dropWhile hd before offset
    · rw [String.append_assoc, ← String.ofList_append, ← eq_append_of_dropWhile hd,
        String.ofList_toList]
    · rw [String.utf8ByteSize_append, utf8ByteSize_ofList]
    · rw [words_of_dropWhile hd, List.tail_cons, String.toList_ofList, Nat.add_assoc]

theorem gives_words (line : String) (offset : Nat) :
    Gives (readWord? line offset) 0 (words offset line.toList) :=
  (keeps_wordsLeft line offset).gives ⟨"", line, String.empty_append.symm, rfl, rfl⟩

theorem isWord_of_mem_words {offset : Nat} {text : List Char} {word : Word}
    (h : word ∈ words offset text) : IsWord word.text := by
  have hm := List.mem_map_of_mem (f := Word.text) h
  rw [map_text_words] at hm
  obtain ⟨run, hr, he⟩ := List.mem_map.1 hm
  exact he ▸ isWord_of_mem_runs hr

theorem slice?_of_mem_words {offset : Nat} {line : String} {word : Word}
    (h : word ∈ words offset line.toList) :
    offset ≤ word.offset ∧ slice? line (word.offset - offset)
      (word.offset - offset + word.text.utf8ByteSize) = some word.text := by
  obtain ⟨before, after, hl, ho, -⟩ := exists_of_mem_words h
  have hline : line = String.ofList before ++ word.text ++ String.ofList after := by
    apply String.toList_inj.1
    rw [hl]
    simp
  refine ⟨by omega, ?_⟩
  rw [ho, Nat.add_sub_cancel_left, ← utf8ByteSize_ofList before, hline]
  exact slice?_middle _ _ _

theorem lt_offset_of_mem_words {offset : Nat} {text : List Char} {word : Word}
    (hb : text.head?.all isBlank = true) (h : word ∈ words offset text) : offset < word.offset := by
  obtain ⟨before, after, ht, ho, hn⟩ := exists_of_mem_words h
  cases before with
  | nil =>
    obtain ⟨c, cs, hc⟩ := List.exists_cons_of_ne_nil (mt String.toList_eq_nil_iff.1 hn)
    have hf := (isWord_of_mem_words h).2 c (hc ▸ List.mem_cons_self)
    rw [ht, hc] at hb
    have ht : isBlank c = true := by simpa using hb
    rw [ht] at hf
    cases hf
  | cons c before =>
    have hc := c.utf8Size_pos
    rw [ho, byteLength_cons]
    omega

theorem head?_dropWhile_all (text : List Char) :
    (text.dropWhile (!isBlank ·)).head?.all isBlank = true := by
  cases hd : text.dropWhile (!isBlank ·) with
  | nil => rfl
  | cons c rest => simpa using eq_false_of_dropWhile hd

theorem words_separated (offset : Nat) (text : List Char) :
    (words offset text).Pairwise fun first second => first.span.stop < second.span.start := by
  induction offset, text using words.induct with
  | case1 offset text hd =>
    rw [words_of_all_blank hd]
    exact List.Pairwise.nil
  | case2 offset text start c rest hd run ih =>
    rw [words_of_dropWhile hd, List.pairwise_cons, byteLength_append, ← Nat.add_assoc]
    refine ⟨fun word hw => ?_, ih⟩
    have hs := lt_offset_of_mem_words (head?_dropWhile_all rest) hw
    rwa [Word.span, utf8ByteSize_ofList]

theorem mem_of_charAt? {text : List Char} {byte : Nat} {c : Char} (h : charAt? text byte = some c) :
    c ∈ text := by
  induction text generalizing byte with
  | nil => cases h
  | cons d text ih =>
    rw [charAt?] at h
    split at h
    · cases h
      exact List.mem_cons_self
    · exact List.mem_cons_of_mem _ (ih h)

theorem charAt?_append (s t : List Char) (byte : Nat) :
    charAt? (s ++ t) byte =
      if byte < byteLength s then charAt? s byte else charAt? t (byte - byteLength s) := by
  induction s generalizing byte with
  | nil => rfl
  | cons c s ih =>
    rw [List.cons_append, charAt?, charAt?, ih, byteLength_cons]
    by_cases hc : byte < c.utf8Size
    · rw [if_pos hc, if_pos hc, if_pos (by omega)]
    · rw [if_neg hc, if_neg hc, Nat.sub_sub]
      by_cases hs : byte - c.utf8Size < byteLength s
      · rw [if_pos hs, if_pos (by omega)]
      · rw [if_neg hs, if_neg (by omega)]

theorem exists_charAt?_iff {text : List Char} {byte : Nat} :
    (∃ c, charAt? text byte = some c) ↔ byte < byteLength text := by
  induction text generalizing byte with
  | nil => exact iff_of_false (by rintro ⟨c, hc⟩; cases hc) (Nat.not_lt_zero byte)
  | cons c text ih =>
    rw [charAt?, byteLength_cons]
    split
    · next hc => exact iff_of_true ⟨c, rfl⟩ (by omega)
    · next hc =>
      rw [ih]
      omega

theorem not_inRun_of_blank {text : List Char} (h : ∀ c ∈ text, isBlank c = true) (byte : Nat) :
    ¬ InRun text byte := by
  rintro ⟨c, hc, hf⟩
  rw [h c (mem_of_charAt? hc)] at hf
  cases hf

theorem inRun_iff_of_not_blank {text : List Char} (h : ∀ c ∈ text, isBlank c = false) {byte : Nat} :
    InRun text byte ↔ byte < byteLength text := by
  rw [← exists_charAt?_iff]
  exact exists_congr fun c => and_iff_left_of_imp fun hc => h c (mem_of_charAt? hc)

theorem inRun_append (s t : List Char) (byte : Nat) :
    InRun (s ++ t) byte ↔
      byte < byteLength s ∧ InRun s byte ∨ byteLength s ≤ byte ∧ InRun t (byte - byteLength s) := by
  simp only [InRun, charAt?_append]
  by_cases hs : byte < byteLength s
  · simp [hs, Nat.not_le.2 hs]
  · simp [hs, Nat.le_of_not_lt hs]

theorem exists_covers_iff (offset : Nat) (text : List Char) (byte : Nat) :
    (∃ word ∈ words offset text, word.span.Covers byte) ↔
      offset ≤ byte ∧ InRun text (byte - offset) := by
  induction offset, text using words.induct generalizing byte with
  | case1 offset text hd =>
    rw [words_of_all_blank hd]
    refine iff_of_false (by simp) fun h => ?_
    exact not_inRun_of_blank (List.dropWhile_eq_nil_iff.1 hd) _ h.2
  | case2 offset text start c rest hd run ih =>
    let blanks := text.takeWhile isBlank
    let later := rest.dropWhile (!isBlank ·)
    have hb (n : Nat) : ¬ InRun blanks n :=
      not_inRun_of_blank (fun d hm => List.mem_takeWhile_imp hm) n
    have hr (n : Nat) : InRun run n ↔ n < byteLength run :=
      inRun_iff_of_not_blank (not_blank_of_mem_run (eq_false_of_dropWhile hd) rest)
    have ht : text = blanks ++ run ++ later := eq_append_of_dropWhile hd
    have hfirst : (Word.span ⟨String.ofList run, start⟩).Covers byte ↔
        start ≤ byte ∧ byte < start + byteLength run := by
      rw [Span.Covers, Word.span, utf8ByteSize_ofList]
    have hrest : (∃ word ∈ words (start + byteLength run) later, word.span.Covers byte) ↔
        start + byteLength run ≤ byte ∧ InRun later (byte - (start + byteLength run)) :=
      ih byte
    have hstart : start = offset + byteLength blanks := rfl
    have hlater : byte - offset - (byteLength blanks + byteLength run) =
        byte - (start + byteLength run) := by
      omega
    rw [words_of_dropWhile hd, List.exists_mem_cons_iff, byteLength_append, ← Nat.add_assoc]
    refine (or_congr hfirst hrest).trans ?_
    rw [ht, inRun_append, inRun_append, byteLength_append, hr, hlater]
    simp only [hb, and_false, false_or]
    by_cases hp : InRun later (byte - (start + byteLength run))
    · simp only [hp, and_true]
      omega
    · simp only [hp, and_false, or_false]
      omega

theorem isBlank_iff_not_covered {text : List Char} {byte : Nat} {c : Char}
    (h : charAt? text byte = some c) (offset : Nat) :
    isBlank c = true ↔ ∀ word ∈ words offset text, ¬ word.span.Covers (offset + byte) := by
  have hrun : InRun text byte ↔ isBlank c = false := by
    simp only [InRun, h, Option.some.injEq, exists_eq_left']
  have hcovers := exists_covers_iff offset text (offset + byte)
  rw [Nat.add_sub_cancel_left, and_iff_right (Nat.le_add_right _ _), hrun] at hcovers
  rw [← Bool.not_eq_false, ← hcovers]
  push Not
  exact Iff.rfl

/-- A cursor that goes over a line takes its slices at the boundaries of characters, and finds the
runs of characters that are not blank, in order, each with the bytes that it takes in the line. -/
theorem cursor_finds_words (line : String) (offset : Nat) :
    Gives (readWord? line offset) 0 (words offset line.toList) ∧
      (words offset line.toList).map Word.text = (runs line.toList).map String.ofList ∧
      (∀ word ∈ words offset line.toList,
        word.text ≠ "" ∧ (∀ c ∈ word.text.toList, isBlank c = false) ∧
        offset ≤ word.offset ∧ slice? line (word.offset - offset)
          (word.offset - offset + word.text.utf8ByteSize) = some word.text) ∧
      (words offset line.toList).Pairwise
        (fun first second => first.span.stop < second.span.start) ∧
      ∀ byte < line.utf8ByteSize, ∃ c, charAt? line.toList byte = some c ∧
        (isBlank c = true ↔
          ∀ word ∈ words offset line.toList, ¬ word.span.Covers (offset + byte)) := by
  refine ⟨gives_words line offset, map_text_words offset line.toList, fun word hw => ?_,
    words_separated offset line.toList, fun byte hb => ?_⟩
  · obtain ⟨hn, hf⟩ := isWord_of_mem_words hw
    exact ⟨hn, hf, slice?_of_mem_words hw⟩
  · rw [← byteLength_toList, ← exists_charAt?_iff] at hb
    obtain ⟨c, hc⟩ := hb
    exact ⟨c, hc, isBlank_iff_not_covered hc offset⟩

end Accumulator.Text
