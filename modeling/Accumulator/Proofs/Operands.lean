import Accumulator.Proofs.Spans

namespace Accumulator

open Text

namespace Text.Integer

def unsigned : List Char → List Char
  | '-' :: text => text
  | '+' :: text => text
  | text => text

def digits (text : List Char) : List Char := (unsigned text).takeWhile Char.isDigit

/-- What follows the digits. -/
def trailing (text : List Char) : List Char := (unsigned text).dropWhile Char.isDigit

def denoted (text : List Char) : Int :=
  let n : Int := Nat.ofDigitChars 10 (digits text) 0
  if text.head? = some '-' then -n else n

/-- The text is a sign, digits and nothing else, for an integer from `-lower` to `upper`. -/
def Denotes (lower upper : Nat) (text : List Char) : Prop :=
  digits text ≠ [] ∧ trailing text = [] ∧ -(lower : Int) ≤ denoted text ∧ denoted text ≤ upper

instance (lower upper : Nat) (text : List Char) : Decidable (Denotes lower upper text) :=
  inferInstanceAs (Decidable (_ ∧ _))

/-- What is wrong with a text that denotes no such integer. Too many digits are worse than what
follows them. -/
def blame (lower upper : Nat) (text : List Char) : Fault :=
  if upper < denoted text then .tooLarge
  else if denoted text < -(lower : Int) then .tooSmall
  else .invalidDigit

theorem readMagnitude_eq (bound : Nat) (excess : Fault) (text : List Char) :
    readMagnitude bound excess text =
      let run := text.takeWhile Char.isDigit
      let n := Nat.ofDigitChars 10 run 0
      if bound < n then .error excess
      else if run ≠ [] ∧ text.dropWhile Char.isDigit = [] then .ok n
      else .error .invalidDigit := by
  cases text with
  | nil => simp [readMagnitude]
  | cons c text =>
    have hrun : (c :: text).dropWhile Char.isDigit = [] → (c :: text).takeWhile Char.isDigit ≠ [] := by
      intro hd ht
      have ha := List.takeWhile_append_dropWhile (p := Char.isDigit) (l := c :: text)
      rw [hd, ht] at ha
      cases ha
    rw [readMagnitude, readDigits_eq _ (Nat.zero_le _)]
    · simp only [and_iff_right_of_imp hrun]
    · simp

theorem read_eq (lower upper : Nat) (text : List Char) :
    read lower upper text =
      if Denotes lower upper text then .ok (denoted text) else .error (blame lower upper text) := by
  unfold read
  split
  · next text =>
    have hd : denoted ('-' :: text) = -(Nat.ofDigitChars 10 (text.takeWhile Char.isDigit) 0 : Nat) :=
      rfl
    simp only [readMagnitude_eq, Denotes, blame, hd, digits, trailing, unsigned]
    grind [Except.map]
  · next text =>
    have hd : denoted ('+' :: text) = (Nat.ofDigitChars 10 (text.takeWhile Char.isDigit) 0 : Nat) :=
      rfl
    simp only [readMagnitude_eq, Denotes, blame, hd, digits, trailing, unsigned]
    grind [Except.map]
  · next hminus hplus =>
    have hu : unsigned text = text := unsigned.eq_3 text hminus hplus
    have hd : denoted text = (Nat.ofDigitChars 10 (text.takeWhile Char.isDigit) 0 : Nat) := by
      rw [denoted, digits, hu, if_neg]
      intro hh
      obtain ⟨rest, ht⟩ := List.head?_eq_some_iff.1 hh
      exact hminus rest ht
    simp only [readMagnitude_eq, Denotes, blame, hd, digits, trailing, hu]
    grind [Except.map]

theorem readInt32_eq (text : List Char) :
    readInt32 text =
      if Denotes (2 ^ 31) (2 ^ 31 - 1) text then .ok (Int32.ofInt (denoted text))
      else .error (blame (2 ^ 31) (2 ^ 31 - 1) text) := by
  have hs : Int32.size / 2 = 2 ^ 31 := rfl
  rw [readInt32, hs, read_eq]
  split <;> rfl

theorem denotes_int32_iff {text : List Char} :
    Denotes (2 ^ 31) (2 ^ 31 - 1) text ↔ digits text ≠ [] ∧ trailing text = [] ∧
      -2 ^ 31 ≤ denoted text ∧ denoted text ≤ 2 ^ 31 - 1 :=
  Iff.rfl

theorem message_blame_int32 (text : List Char) :
    (blame (2 ^ 31) (2 ^ 31 - 1) text).message =
      if 2 ^ 31 - 1 < denoted text then "number too large to fit in target type"
      else if denoted text < -2 ^ 31 then "number too small to fit in target type"
      else "invalid digit found in string" := by
  rw [blame, apply_ite Fault.message, apply_ite Fault.message]
  rfl

end Text.Integer

namespace Assembly

theorem exists_words_of_runs {offset : Nat} {line first second : List Char} {rest : List (List Char)}
    (h : runs line = first :: second :: rest) :
    ∃ u v ws, words offset (dropReturn line) = u :: v :: ws ∧ u.text = String.ofList first ∧
      v.text = String.ofList second := by
  have hm := map_text_words offset (dropReturn line)
  rw [runs_dropReturn, h] at hm
  obtain ⟨u, us, hw, hu, ht⟩ := List.map_eq_cons_iff.1 hm
  obtain ⟨v, ws, rfl, hv, -⟩ := List.map_eq_cons_iff.1 ht
  exact ⟨u, v, ws, hw, hu, hv⟩

theorem readSlot_integer {line operand : List Char} {rest : List (List Char)} {opcode : Opcode}
    (number offset : Nat) (ho : opcode ∈ [.ldi, .jmp, .jzs, .jvs])
    (hr : runs line = opcode.mnemonic.toList :: operand :: rest) :
    ∃ (build : Int32 → Instruction) (span : Span),
      (∀ value, (build value).opcode = opcode ∧ (build value).operand? = some (.integer value)) ∧
      readSlot number (words offset (dropReturn line)) =
        match Integer.readInt32 operand with
        | .ok value => .ok (some (build value))
        | .error fault =>
          .error ⟨number, opcode, span, .invalidInteger (String.ofList operand) fault⟩ := by
  obtain ⟨u, v, ws, hw, hu, hv⟩ := @exists_words_of_runs offset _ _ _ _ hr
  have hm : Opcode.ofMnemonic? u.text = some opcode :=
    Opcode.ofMnemonic?_eq_some_iff.2 (by rw [hu, String.ofList_toList])
  -- the opcodes differ in the instruction that is built of the integer, and in nothing else
  have hi : ∃ build : Int32 → Instruction,
      (∀ value, (build value).opcode = opcode ∧ (build value).operand? = some (.integer value)) ∧
      readInstruction number opcode u (v :: ws) = (readInteger number opcode v).map build := by
    simp only [List.mem_cons, List.not_mem_nil, or_false] at ho
    rcases ho with rfl | rfl | rfl | rfl
    · exact ⟨.ldi, fun _ => ⟨rfl, rfl⟩, rfl⟩
    · exact ⟨.jmp, fun _ => ⟨rfl, rfl⟩, rfl⟩
    · exact ⟨.jzs, fun _ => ⟨rfl, rfl⟩, rfl⟩
    · exact ⟨.jvs, fun _ => ⟨rfl, rfl⟩, rfl⟩
  obtain ⟨build, hb, hi⟩ := hi
  refine ⟨build, v.span, hb, ?_⟩
  rw [hw, readSlot, hm]
  simp only [hi, readInteger, hv, String.toList_ofList]
  cases Integer.readInt32 operand <;> rfl

section

variable {line operand : List Char} {rest : List (List Char)} {opcode : Opcode}

theorem readSlot_of_denotes (number offset : Nat) (ho : opcode ∈ [.ldi, .jmp, .jzs, .jvs])
    (hr : runs line = opcode.mnemonic.toList :: operand :: rest)
    (hd : Integer.Denotes (2 ^ 31) (2 ^ 31 - 1) operand) :
    ∃ instruction value, readSlot number (words offset (dropReturn line)) = .ok (some instruction) ∧
      instruction.opcode = opcode ∧ instruction.operand? = some (.integer value) ∧
      value.toInt = Integer.denoted operand := by
  obtain ⟨build, span, hb, hs⟩ := readSlot_integer number offset ho hr
  rw [Integer.readInt32_eq, if_pos hd] at hs
  obtain ⟨-, -, hlower, hupper⟩ := Integer.denotes_int32_iff.1 hd
  exact ⟨_, _, hs, (hb _).1, (hb _).2, Int32.toInt_ofInt_of_le hlower (Int.le_sub_one_iff.1 hupper)⟩

theorem readSlot_of_not_denotes (number offset : Nat) (ho : opcode ∈ [.ldi, .jmp, .jzs, .jvs])
    (hr : runs line = opcode.mnemonic.toList :: operand :: rest)
    (hd : ¬ Integer.Denotes (2 ^ 31) (2 ^ 31 - 1) operand) :
    ∃ span, readSlot number (words offset (dropReturn line)) = .error ⟨number, opcode, span,
      .invalidInteger (String.ofList operand) (Integer.blame (2 ^ 31) (2 ^ 31 - 1) operand)⟩ := by
  obtain ⟨build, span, -, hs⟩ := readSlot_integer number offset ho hr
  rw [Integer.readInt32_eq, if_neg hd] at hs
  exact ⟨span, hs⟩

end

end Assembly

namespace Program

variable {source : String} {i : Fin programSize} {line operand : List Char}
  {rest : List (List Char)} {opcode : Opcode}

/-- An integer is accepted for what it denotes, and refused for the first reason there is. -/
theorem ofSource_judges_integers
    (hl : (source.toList.splitOn '\n')[i.val]? = some line)
    (ho : opcode ∈ [.ldi, .jmp, .jzs, .jvs])
    (hr : runs line = opcode.mnemonic.toList :: operand :: rest) :
    let lines := source.toList.splitOn '\n'
    let v := Integer.denoted operand
    let loads := Integer.digits operand ≠ [] ∧ Integer.trailing operand = [] ∧
      -2 ^ 31 ≤ v ∧ v ≤ 2 ^ 31 - 1
    (∀ program, ofSource source = .ok program → loads ∧
      ∃ instruction value, program.slots.get i = some instruction ∧ instruction.opcode = opcode ∧
        instruction.operand? = some (.integer value) ∧ value.toInt = v) ∧
    (loads →
      (∀ j < 128, j ≠ i.val → ∀ other, lines[j]? = some other →
        ∃ slot, Assembly.decode other = .ok slot) →
      ∃ program, ofSource source = .ok program) ∧
    (¬ loads →
      (∀ j < i.val, ∀ earlier, lines[j]? = some earlier →
        ∃ slot, Assembly.decode earlier = .ok slot) →
      ∃ error fault, ofSource source = .error error ∧ error.line = i.val + 1 ∧
        error.opcode = opcode ∧ error.cause = .invalidInteger (String.ofList operand) fault ∧
        fault.message =
          if 2 ^ 31 - 1 < v then "number too large to fit in target type"
          else if v < -2 ^ 31 then "number too small to fit in target type"
          else "invalid digit found in string") := by
  intro lines v loads
  refine ⟨fun program hp => ?_, fun hd ho' => ?_, fun hd hb => ?_⟩
  · obtain ⟨slots, hs, rfl⟩ := ofSource_eq_ok_iff.1 hp
    have hline := (@Assembly.readLine_eq_ok_iff 0 0 line _).2 ((slots_of_decode hs i).1 line hl)
    by_cases hd : loads
    · obtain ⟨instruction, value, hread, hi⟩ := Assembly.readSlot_of_denotes 0 0 ho hr hd
      exact ⟨hd, instruction, value, Except.ok.inj (hline.symm.trans hread), hi⟩
    · obtain ⟨span, hread⟩ := Assembly.readSlot_of_not_denotes 0 0 ho hr hd
      cases hline.symm.trans hread
  · refine exists_ofSource fun j hj other hother => ?_
    by_cases hji : j = i.val
    · obtain ⟨instruction, value, hread, -⟩ := Assembly.readSlot_of_denotes 0 0 ho hr hd
      cases hji
      cases hl.symm.trans hother
      exact ⟨_, Assembly.readLine_eq_ok_iff.1 hread⟩
    · exact ho' j hj hji other hother
  · obtain ⟨span, hread⟩ := Assembly.readSlot_of_not_denotes 0 0 ho hr hd
    have hf := Assembly.readLine_decode 0 0 line
    rw [hread] at hf
    obtain ⟨error, he, hline, -⟩ := ofSource_eq_error i.isLt hl hf.symm hb
    -- the line that the fault is reported for is this one, so its reason is the one found here
    obtain ⟨before, found, after, hsplit, -, hfound⟩ := readSlot_of_ofSource he
    have hlen : before.length = i.val := by
      have hn := Assembly.readSlot_line hfound
      omega
    have hsame : found = line := by
      rw [hsplit, ← hlen, List.getElem?_append_right (Nat.le_refl _), Nat.sub_self] at hl
      exact Option.some.inj hl
    obtain ⟨_, hrefused⟩ := Assembly.readSlot_of_not_denotes (1 + before.length)
      (0 + byteLength (closed '\n' before)) ho (hsame ▸ hr) hd
    cases hrefused.symm.trans hfound
    exact ⟨_, _, he, hline, rfl, rfl, Integer.message_blame_int32 operand⟩

/-- Behind leading zeros the least integer is accepted, and one past the greatest is too large before
it is seen that a letter follows. -/
theorem ofSource_judges_integers_at_bounds :
    (∃ program instruction value, ofSource "JZS -0002147483648" = .ok program ∧
      program.slots.get 0 = some instruction ∧ instruction.operand? = some (.integer value) ∧
      value.toInt = -2147483648) ∧
    ∃ error fault, ofSource "XCH\nLDI +2147483648x" = .error error ∧ error.line = 2 ∧
      error.cause = .invalidInteger "+2147483648x" fault ∧
      fault.message = "number too large to fit in target type" := by
  constructor
  · obtain ⟨hkept, hloads, -⟩ := @ofSource_judges_integers "JZS -0002147483648" 0
      "JZS -0002147483648".toList "-0002147483648".toList [] .jzs (by cbv) (by decide) (by cbv)
    have hlines : "JZS -0002147483648".toList.splitOn '\n' = ["JZS -0002147483648".toList] := by
      cbv
    obtain ⟨program, hp⟩ := hloads (by decide +kernel) fun j _ hj other ho => by
      rw [hlines, List.getElem?_eq_none (Nat.pos_of_ne_zero hj)] at ho
      cases ho
    obtain ⟨-, instruction, value, hs, -, ho, hv⟩ := hkept program hp
    exact ⟨program, instruction, value, hp, hs, ho, hv⟩
  · obtain ⟨-, -, hrefused⟩ := @ofSource_judges_integers "XCH\nLDI +2147483648x" 1
      "LDI +2147483648x".toList "+2147483648x".toList [] .ldi (by cbv) (by decide) (by cbv)
    have hfirst : ("XCH\nLDI +2147483648x".toList.splitOn '\n')[0]? = some "XCH".toList := by
      cbv
    obtain ⟨error, fault, he, hn, -, hc, hm⟩ := hrefused (by decide +kernel) fun j hj earlier ho => by
      rw [Nat.lt_one_iff.1 hj, hfirst] at ho
      cases ho
      exact ⟨some .xch, by cbv⟩
    exact ⟨error, fault, he, hn, hc, hm⟩

end Program

end Accumulator
