import Accumulator.Proofs.Allocation
import Accumulator.Proofs.Lines
import Accumulator.Proofs.SourceText

namespace Accumulator

open Text

namespace Text

/-- A text that is read as one word. -/
def IsWord (text : String) : Prop := text ≠ "" ∧ ∀ c ∈ text.toList, isBlank c = false

theorem IsWord.runs_eq {text : String} (h : IsWord text) : runs text.toList = [text.toList] :=
  runs_of_not_blank (mt String.toList_eq_nil_iff.1 h.1) h.2

theorem IsWord.runs_append {first second : String} (hf : IsWord first) (hs : IsWord second) :
    runs (first ++ " " ++ second).toList = [first.toList, second.toList] := by
  have ht : (first ++ " " ++ second).toList = first.toList ++ ' ' :: second.toList := by simp
  rw [ht, runs_append_cons (by decide), hf.runs_eq, hs.runs_eq]
  rfl

theorem IsWord.lineFeed_not_mem {text : String} (h : IsWord text) : '\n' ∉ text.toList := fun hm =>
  absurd (h.2 '\n' hm) (by decide)

theorem isWord_of_mem_runs {text run : List Char} (h : run ∈ runs text) :
    IsWord (String.ofList run) := by
  obtain ⟨hm, hn⟩ := List.mem_filter.1 h
  refine ⟨by simpa using hn, fun c hc => ?_⟩
  rw [String.toList_ofList] at hc
  exact eq_false_of_mem_splitOnP hm hc

theorem isBlank_of_isDigit {c : Char} (h : c.isDigit = true) : isBlank c = false := by
  have hc : 48 ≤ c.toNat ∧ c.toNat ≤ 57 := by
    simpa [Char.isDigit, UInt32.le_iff_toNat_le] using h
  simp only [isBlank, blankRanges, List.any_cons, List.any_nil, Bool.or_eq_false_iff,
    Bool.and_eq_false_iff, decide_eq_false_iff_not, and_true]
  omega

theorem isBlank_of_mem_toDigits {n : Nat} {c : Char} (h : c ∈ Nat.toDigits 10 n) :
    isBlank c = false :=
  isBlank_of_isDigit (Nat.isDigit_of_mem_toDigits (by decide) (by decide) h)

theorem isWord_repr (n : Int) : IsWord n.repr := by
  cases n with
  | ofNat n =>
    refine ⟨mt String.toList_eq_nil_iff.2 ?_, fun c hc => ?_⟩
    · rw [Int.repr, Nat.toList_repr]
      exact Nat.toDigits_ne_nil
    · rw [Int.repr, Nat.toList_repr] at hc
      exact isBlank_of_mem_toDigits hc
  | negSucc n =>
    refine ⟨mt String.toList_eq_nil_iff.2 ?_, fun c hc => ?_⟩
    · rw [Integer.toList_repr_negSucc]
      exact List.cons_ne_nil _ _
    · rw [Integer.toList_repr_negSucc] at hc
      rcases List.mem_cons.1 hc with rfl | hc
      · decide
      · exact isBlank_of_mem_toDigits hc

theorem isWord_mnemonic (opcode : Opcode) : IsWord opcode.mnemonic := by
  have hb : opcode.mnemonic.toList.all (!isBlank ·) = true := by
    cases opcode <;> cbv
  refine ⟨by cases opcode <;> decide, fun c hc => ?_⟩
  simpa using List.all_eq_true.1 hb c hc

end Text

namespace Instruction

theorem isWord_operand {instruction : Instruction} {operand : Operand}
    (h : ∀ label, instruction.label? = some label → IsWord label)
    (ho : instruction.operand? = some operand) : IsWord operand.text := by
  cases operand with
  | symbol label => exact h label (by rw [label?, ho])
  | integer value => exact isWord_repr value.toInt

theorem runs_render {instruction : Instruction}
    (h : ∀ label, instruction.label? = some label → IsWord label) :
    (runs instruction.render.toList).map String.ofList =
      instruction.opcode.mnemonic :: (instruction.operand?.map Operand.text).toList := by
  have hm := isWord_mnemonic instruction.opcode
  unfold render
  cases ho : instruction.operand? with
  | none =>
    dsimp only
    rw [hm.runs_eq, List.map_singleton, String.ofList_toList]
    rfl
  | some operand =>
    dsimp only
    rw [hm.runs_append (isWord_operand h ho), List.map_cons, List.map_singleton,
      String.ofList_toList, String.ofList_toList]
    rfl

theorem lineFeed_not_mem_render {instruction : Instruction}
    (h : ∀ label, instruction.label? = some label → IsWord label) :
    '\n' ∉ instruction.render.toList := by
  have hm := (isWord_mnemonic instruction.opcode).lineFeed_not_mem
  unfold render
  cases ho : instruction.operand? with
  | none => exact hm
  | some operand =>
    have hl := (isWord_operand h ho).lineFeed_not_mem
    simp [hm, hl]

end Instruction

namespace Assembly

theorem decode_render {instruction : Instruction}
    (h : ∀ label, instruction.label? = some label → IsWord label) :
    decode instruction.render.toList = .ok (some instruction) := by
  rw [decode, Instruction.runs_render h]
  cases instruction with
  | dec label | lda label | str label | xch | add | sub | hlt => rfl
  | ldi value | jmp value | jzs value | jvs value =>
    change decodeInteger _ (toString value.toInt) _ = _
    rw [decodeInteger, Integer.int32?_toString]

theorem eq_of_decodeInteger {opcode : Opcode} {operand : String} {build : Int32 → Instruction}
    {instruction : Instruction}
    (h : decodeInteger opcode operand build = .ok (some instruction)) :
    ∃ value, instruction = build value := by
  unfold decodeInteger at h
  split at h
  · cases h; exact ⟨_, rfl⟩
  · cases h

theorem mem_of_decodeWords {ws : List String} {instruction : Instruction} {label : String}
    (h : decodeWords ws = .ok (some instruction)) (hl : instruction.label? = some label) :
    label ∈ ws := by
  cases ws with
  | nil => cases h
  | cons mnemonic operands =>
    cases ho : Opcode.ofMnemonic? mnemonic with
    | none =>
      rw [decodeWords_of_not_mnemonic ho] at h
      cases h
    | some opcode =>
      rw [Opcode.ofMnemonic?_eq_some_iff.1 ho] at h ⊢
      cases opcode with
      | xch | add | sub | hlt => cases h; cases hl
      | dec | lda | str =>
        cases operands with
        | nil => cases h
        | cons operand operands => cases h; cases hl; simp
      | ldi | jmp | jzs | jvs =>
        cases operands with
        | nil => cases h
        | cons operand operands =>
          obtain ⟨value, rfl⟩ := eq_of_decodeInteger h
          cases hl

theorem isWord_of_decode {line : List Char} {instruction : Instruction} {label : String}
    (h : decode line = .ok (some instruction)) (hl : instruction.label? = some label) :
    IsWord label := by
  obtain ⟨run, hr, rfl⟩ := List.mem_map.1 (mem_of_decodeWords h hl)
  exact isWord_of_mem_runs hr

end Assembly

namespace Program

/-- The names of the variables are words, as they must be if they are to be read back. -/
def Readable (program : Program) : Prop :=
  ∀ label ∈ program.labels, label ≠ "" ∧ ∀ c ∈ label.toList, isBlank c = false

variable {program : Program}

theorem lines_render (h : program.Readable) :
    Assembly.lines program.render =
      program.slots.toList.map fun slot => (slot.elim "" Instruction.render).toList := by
  rw [Assembly.lines, render, String.toList_intercalate, List.map_map]
  refine List.splitOn_intercalate '\n' (fun line hl => ?_) ?_
  · obtain ⟨slot, hs, rfl⟩ := List.mem_map.1 hl
    cases slot with
    | none => simp
    | some instruction =>
      exact Instruction.lineFeed_not_mem_render fun label hi =>
        h label (List.mem_filterMap.2 ⟨_, hs, hi⟩)
  · intro he
    have hl := congrArg List.length he
    rw [List.length_map, Vector.length_toList] at hl
    cases hl

theorem ofList_toList (program : Program) : ofList program.slots.toList = program := by
  rcases program with ⟨slots⟩
  rw [ofList, mk.injEq]
  ext i hi
  simp

theorem ofSource_render (h : program.Readable) : ofSource program.render = .ok program := by
  refine ofSource_eq_ok_iff.2 ⟨program.slots.toList, ?_, (ofList_toList program).symm⟩
  have hl : program.slots.toList.length ≤ programSize := Nat.le_of_eq Vector.length_toList
  rw [lines_render h, List.take_of_length_le (by rwa [List.length_map]), List.map_map]
  refine List.map_congr_left fun slot hs => ?_
  cases slot with
  | none => rfl
  | some instruction =>
    exact Assembly.decode_render fun label hi => h label (List.mem_filterMap.2 ⟨_, hs, hi⟩)

theorem readable_of_ofSource {source : String} (h : ofSource source = .ok program) :
    program.Readable := by
  intro label hl
  obtain ⟨slots, hs, rfl⟩ := ofSource_eq_ok_iff.1 h
  obtain ⟨i, instruction, hm, hi⟩ := mem_labels_iff.1 hl
  obtain ⟨hline, hnone⟩ := slots_of_decode hs i
  cases ht : (Assembly.lines source)[i.val]? with
  | none =>
    rw [hnone ht] at hi
    cases hi
  | some line =>
    have hd := hline line ht
    rw [hi] at hd
    exact Assembly.isWord_of_decode hd (Instruction.label?_eq_some_iff.2 hm)

/-- A program is read as it was written, and all programs that can be read can be written. -/
theorem ofSource_render_roundTrip :
    (∀ program : Program, program.Readable → ofSource program.render = .ok program) ∧
      ∀ source, (∀ program, ofSource source = .ok program → program.Readable) ∧
        ((ofSource source).bind fun program => ofSource program.render) = ofSource source := by
  refine ⟨fun program => ofSource_render, fun source => ⟨fun program => readable_of_ofSource, ?_⟩⟩
  cases h : ofSource source with
  | error e => rfl
  | ok program => exact ofSource_render (readable_of_ofSource h)

end Program

end Accumulator
