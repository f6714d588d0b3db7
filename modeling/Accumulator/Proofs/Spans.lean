import Accumulator.Proofs.Bytes
import Accumulator.Proofs.Lines
import Accumulator.Proofs.SourceText

namespace Accumulator

open Text

namespace Text

theorem words_of_dropWhile {offset : Nat} {text rest : List Char} {c : Char}
    (h : text.dropWhile isBlank = c :: rest) :
    words offset text =
      ⟨String.ofList (c :: rest.takeWhile (!isBlank ·)),
        offset + byteLength (text.takeWhile isBlank)⟩ ::
      words (offset + byteLength (text.takeWhile isBlank ++ c :: rest.takeWhile (!isBlank ·)))
        (rest.dropWhile (!isBlank ·)) := by
  rw [byteLength_append, ← Nat.add_assoc, words, h]

theorem eq_append_of_dropWhile {text rest : List Char} {c : Char}
    (h : text.dropWhile isBlank = c :: rest) :
    text = text.takeWhile isBlank ++ c :: rest.takeWhile (!isBlank ·) ++
      rest.dropWhile (!isBlank ·) := by
  rw [List.append_assoc, List.cons_append, List.takeWhile_append_dropWhile, ← h,
    List.takeWhile_append_dropWhile]

theorem exists_of_mem_words {offset : Nat} {text : List Char} {word : Word}
    (h : word ∈ words offset text) :
    ∃ before after, text = before ++ word.text.toList ++ after ∧
      word.offset = offset + byteLength before ∧ word.text ≠ "" := by
  induction offset, text using words.induct with
  | case1 offset text hd =>
    rw [words, hd] at h
    cases h
  | case2 offset text start c rest hd run ih =>
    rw [words_of_dropWhile hd] at h
    have ht := eq_append_of_dropWhile hd
    rcases List.mem_cons.1 h with rfl | h
    · refine ⟨text.takeWhile isBlank, rest.dropWhile (!isBlank ·), ?_, rfl, by simp⟩
      rwa [String.toList_ofList]
    · rw [byteLength_append, ← Nat.add_assoc] at h
      obtain ⟨before, after, hr, ho, hn⟩ := ih h
      refine ⟨text.takeWhile isBlank ++ run ++ before, after, ?_, ?_, hn⟩
      · rw [hr] at ht
        simpa only [List.append_assoc] using ht
      · rw [ho, byteLength_append, byteLength_append]
        omega

end Text

/-- The part of the source text that is at fault. -/
def LoadError.subject (error : LoadError) : String :=
  match error.cause with
  | .missingOperand => error.opcode.mnemonic
  | .invalidInteger operand _ => operand

namespace Assembly

theorem readSlot_error_word {line : Nat} {ws : List Word} {error : LoadError}
    (h : readSlot line ws = .error error) :
    (ws.map Word.text).head? = some error.opcode.mnemonic ∧
      ∃ word ∈ ws, error.span = word.span ∧ error.subject = word.text := by
  obtain ⟨opcode, mnemonic, operands, rfl, ho, hc⟩ := readSlot_error_cases h
  have hm := Opcode.ofMnemonic?_eq_some_iff.1 ho
  rcases hc with ⟨-, rfl⟩ | ⟨operand, rest, fault, rfl, -, rfl⟩
  · exact ⟨congrArg some hm, mnemonic, List.mem_cons_self, rfl, hm.symm⟩
  · exact ⟨congrArg some hm, operand, List.mem_cons_of_mem _ List.mem_cons_self, rfl, rfl⟩

theorem exists_eq_dropReturn_append (text : List Char) :
    ∃ ending, text = dropReturn text ++ ending := by
  unfold dropReturn
  split
  · next h =>
    obtain ⟨s, rfl⟩ := List.getLast?_eq_some_iff.1 h
    exact ⟨['\r'], by rw [List.dropLast_concat]⟩
  · exact ⟨[], (List.append_nil text).symm⟩

theorem readLines_error_cases {line offset : Nat} {texts : List (List Char)} {error : LoadError}
    (h : readLines line offset texts = .error error) :
    ∃ before text after, texts = before ++ text :: after ∧
      readSlot (line + before.length)
        (words (offset + byteLength (closed '\n' before)) (dropReturn text)) = .error error := by
  induction texts generalizing line offset with
  | nil => cases h
  | cons text texts ih =>
    cases hr : readSlot line (words offset (dropReturn text)) with
    | error e =>
      rw [readLines_cons_error hr] at h
      cases h
      exact ⟨[], text, texts, rfl, hr⟩
    | ok slot =>
      rw [readLines_cons_ok hr] at h
      cases hl : readLines (line + 1) (offset + byteLength text + 1) texts with
      | ok slots => rw [hl] at h; cases h
      | error e =>
        rw [hl] at h
        cases h
        obtain ⟨before, fault, after, rfl, hf⟩ := ih hl
        refine ⟨text :: before, fault, after, rfl, ?_⟩
        have hn : line + (text :: before).length = line + 1 + before.length := by
          rw [List.length_cons]
          omega
        have hb : offset + byteLength (closed '\n' (text :: before)) =
            offset + byteLength text + 1 + byteLength (closed '\n' before) := by
          have hs : '\n'.utf8Size = 1 := by decide
          rw [closed_cons, byteLength_append, byteLength_cons, hs]
          omega
        rw [hn, hb]
        exact hf

end Assembly

namespace Program

theorem readSlot_of_ofSource {source : String} {error : LoadError}
    (h : ofSource source = .error error) :
    ∃ before line after,
      source.toList.splitOn '\n' = before ++ line :: after ∧ before.length < programSize ∧
      Assembly.readSlot (1 + before.length)
        (words (0 + byteLength (closed '\n' before)) (Assembly.dropReturn line)) =
          .error error := by
  have hr : Assembly.readLines 1 0 ((Assembly.lines source).take programSize) = .error error := by
    rw [ofSource] at h
    cases hl : Assembly.readLines 1 0 ((Assembly.lines source).take programSize) with
    | ok slots => rw [hl] at h; cases h
    | error e => rw [hl] at h; cases h; rfl
  obtain ⟨before, line, after, ht, hs⟩ := Assembly.readLines_error_cases hr
  have hlen : before.length < programSize := by
    have hl := congrArg List.length ht
    rw [List.length_take, List.length_append, List.length_cons] at hl
    omega
  have hsplit : source.toList.splitOn '\n' =
      before ++ line :: (after ++ (Assembly.lines source).drop programSize) := by
    rw [← List.cons_append, ← List.append_assoc, ← ht, List.take_append_drop]
    rfl
  exact ⟨before, line, _, hsplit, hlen, hs⟩

/-- Where the fault of a source text stands, counted in characters. -/
theorem ofSource_error_cases {source : String} {error : LoadError}
    (h : ofSource source = .error error) :
    ∃ before line after start rest,
      source.toList.splitOn '\n' = before ++ line :: after ∧ before.length < programSize ∧
      error.line = 1 + before.length ∧
      (runs line).head? = some error.opcode.mnemonic.toList ∧
      source.toList = closed '\n' before ++ start ++ error.subject.toList ++ rest ∧
      '\n' ∉ start ∧ error.subject ≠ "" ∧
      error.span = ⟨byteLength (closed '\n' before ++ start),
        byteLength (closed '\n' before ++ start) + error.subject.utf8ByteSize⟩ := by
  obtain ⟨before, line, after, hsplit, hlen, hs⟩ := readSlot_of_ofSource h
  obtain ⟨hm, word, hw, hspan, hsubject⟩ := Assembly.readSlot_error_word hs
  obtain ⟨start, tail, hd, ho, hn⟩ := exists_of_mem_words hw
  obtain ⟨ending, he⟩ := Assembly.exists_eq_dropReturn_append line
  obtain ⟨rest, hsource⟩ := exists_eq_closed_append hsplit
  have hline : line = start ++ error.subject.toList ++ tail ++ ending := by
    rw [hsubject, ← hd, ← he]
  refine ⟨before, line, _, start, tail ++ ending ++ rest, hsplit, hlen,
    Assembly.readSlot_line hs, ?_, ?_, ?_, hsubject ▸ hn, ?_⟩
  · rw [map_text_words, Assembly.runs_dropReturn, List.head?_map, Option.map_eq_some_iff] at hm
    obtain ⟨run, hrun, htext⟩ := hm
    rw [hrun, ← htext, String.toList_ofList]
  · rw [hsource, hline]
    simp only [List.append_assoc]
  · intro hmem
    refine (not_mem_of_splitOn_eq hsplit).2 ?_
    rw [hline]
    simp [hmem]
  · rw [hspan, hsubject, Word.span, ho, byteLength_append, Nat.zero_add]

theorem ofSource_error_split {source : String} {error : LoadError}
    (h : ofSource source = .error error) :
    ∃ prior rest line, source = prior ++ error.subject ++ rest ∧ error.subject ≠ "" ∧
      error.span = ⟨prior.utf8ByteSize, prior.utf8ByteSize + error.subject.utf8ByteSize⟩ ∧
      error.line = 1 + prior.toList.count '\n' ∧ error.line ≤ programSize ∧
      (source.toList.splitOn '\n')[error.line - 1]? = some line ∧
      (runs line).head? = some error.opcode.mnemonic.toList := by
  obtain ⟨before, line, after, start, rest, hsplit, hlen, hline, hm, hs, hstart, hn, hspan⟩ :=
    ofSource_error_cases h
  have hcount : (closed '\n' before ++ start).count '\n' = before.length := by
    rw [List.count_append, count_closed (not_mem_of_splitOn_eq hsplit).1,
      List.count_eq_zero.2 hstart, Nat.add_zero]
  refine ⟨String.ofList (closed '\n' before ++ start), String.ofList rest, line, ?_, hn, ?_, ?_, ?_,
    ?_, hm⟩
  · apply String.toList_inj.1
    rw [hs]
    simp
  · rw [hspan, utf8ByteSize_ofList]
  · rw [hline, String.toList_ofList, hcount]
  · rw [hline, Nat.add_comm]
    exact hlen
  · rw [hline, hsplit, Nat.add_sub_cancel_left, List.getElem?_append_right (Nat.le_refl _),
      Nat.sub_self]
    rfl

/-- A fault is marked in the source text byte by byte, whatever characters and line ends stand
before it. -/
theorem ofSource_marks_fault {source : String} {error : LoadError}
    (h : ofSource source = .error error) :
    let start := error.span.start
    let stop := error.span.stop
    start < stop ∧ stop ≤ source.utf8ByteSize ∧
      (⟨start⟩ : String.Pos.Raw).IsValid source ∧ (⟨stop⟩ : String.Pos.Raw).IsValid source ∧
      source.toByteArray.extract start stop =
        (match error.cause with
          | .missingOperand => error.opcode.mnemonic
          | .invalidInteger operand _ => operand).toByteArray ∧
      error.line = 1 + (source.toByteArray.extract 0 start).data.toList.count 10 ∧
      error.line ≤ 128 ∧
      (∃ line, (source.toList.splitOn '\n')[error.line - 1]? = some line ∧
        (runs line).head? = some error.opcode.mnemonic.toList) ∧
      error.diagnostic.marks.map (fun mark => (mark.offset, mark.length)) =
        [(start, stop - start)] := by
  obtain ⟨prior, rest, line, hsource, hn, hspan, hline, hle, hg, hm⟩ := ofSource_error_split h
  have hpos : 0 < error.subject.utf8ByteSize :=
    Nat.pos_of_ne_zero (mt String.utf8ByteSize_eq_zero_iff.1 hn)
  intro start stop
  have hstart : start = prior.utf8ByteSize := congrArg Span.start hspan
  have hstop : stop = prior.utf8ByteSize + error.subject.utf8ByteSize := congrArg Span.stop hspan
  have hjoined : stop = (prior ++ error.subject).utf8ByteSize := by
    rw [hstop, String.utf8ByteSize_append]
  refine ⟨by omega, ?_, ?_, ?_, ?_, ?_, hle, ⟨line, hg, hm⟩, rfl⟩
  · rw [hjoined, hsource]
    exact (isValid_append _ _).le_utf8ByteSize
  · rw [hstart, hsource, String.append_assoc]
    exact isValid_append _ _
  · rw [hjoined, hsource]
    exact isValid_append _ _
  · rw [hstart, hstop, hsource]
    exact extract_middle _ _ _
  · rw [hstart, hline, hsource, String.append_assoc, extract_before, count_toByteArray]

theorem ofSource_marks_fault_of_wide_text :
    ∃ error, ofSource "STR é\r\n\u2003LDI\u00a01ü\r\nDEC" = .error error ∧
      error.span = ⟨16, 19⟩ ∧ error.line = 2 ∧
      "STR é\r\n\u2003LDI\u00a01ü\r\nDEC".toByteArray.extract 16 19 = "1ü".toByteArray := by
  have h : ofSource "STR é\r\n\u2003LDI\u00a01ü\r\nDEC" =
      .error ⟨2, .ldi, ⟨16, 19⟩, .invalidInteger "1ü" .invalidDigit⟩ := by
    cbv
  obtain ⟨-, -, -, -, hb, -⟩ := ofSource_marks_fault h
  exact ⟨_, h, rfl, rfl, hb⟩

end Program

end Accumulator
