import Accumulator.Proofs.Grammar

namespace Accumulator

open Text

namespace Assembly

theorem readInteger_eq_error {line : Nat} {opcode : Opcode} {operand : Word}
    {build : Int32 → Instruction} {error : LoadError}
    (h : (readInteger line opcode operand).map build = .error error) :
    ∃ fault, Integer.readInt32 operand.text.toList = .error fault ∧
      error = ⟨line, opcode, operand.span, .invalidInteger operand.text fault⟩ := by
  unfold readInteger at h
  cases hr : Integer.readInt32 operand.text.toList with
  | ok value => rw [hr] at h; cases h
  | error fault => rw [hr] at h; cases h; exact ⟨fault, rfl, rfl⟩

/-- All the faults that a line can have: its mnemonic stands alone, or its operand is no integer. -/
theorem readSlot_error_cases {line : Nat} {ws : List Word} {error : LoadError}
    (h : readSlot line ws = .error error) :
    ∃ opcode mnemonic operands, ws = mnemonic :: operands ∧
      Opcode.ofMnemonic? mnemonic.text = some opcode ∧
      ((operands = [] ∧ error = ⟨line, opcode, mnemonic.span, .missingOperand⟩) ∨
        ∃ operand rest fault, operands = operand :: rest ∧
          Integer.readInt32 operand.text.toList = .error fault ∧
          error = ⟨line, opcode, operand.span, .invalidInteger operand.text fault⟩) := by
  cases ws with
  | nil => cases h
  | cons mnemonic operands =>
    rw [readSlot] at h
    cases ho : Opcode.ofMnemonic? mnemonic.text with
    | none => rw [ho] at h; cases h
    | some opcode =>
      refine ⟨opcode, mnemonic, operands, rfl, ho, ?_⟩
      simp only [ho] at h
      cases hi : readInstruction line opcode mnemonic operands with
      | ok instruction => rw [hi] at h; cases h
      | error e =>
        rw [hi] at h
        cases h
        unfold readInstruction at hi
        split at hi
        · cases hi
        · cases hi; exact Or.inl ⟨rfl, rfl⟩
        · cases hi
        · next operand rest _ =>
          obtain ⟨fault, hf, he⟩ := readInteger_eq_error hi
          exact Or.inr ⟨operand, rest, fault, rfl, hf, he⟩
        · next operand rest _ =>
          obtain ⟨fault, hf, he⟩ := readInteger_eq_error hi
          exact Or.inr ⟨operand, rest, fault, rfl, hf, he⟩

theorem readSlot_line {line : Nat} {ws : List Word} {error : LoadError}
    (h : readSlot line ws = .error error) : error.line = line := by
  obtain ⟨opcode, mnemonic, operands, -, -, ⟨-, rfl⟩ | ⟨operand, rest, fault, -, -, rfl⟩⟩ :=
    readSlot_error_cases h
  · rfl
  · rfl

variable {line offset : Nat} {text : List Char} {texts : List (List Char)}

theorem readLines_cons_error {error : LoadError}
    (h : readSlot line (words offset (dropReturn text)) = .error error) :
    readLines line offset (text :: texts) = .error error := by
  rw [readLines, h]
  rfl

theorem readLines_cons_ok {slot : Option Instruction}
    (h : readSlot line (words offset (dropReturn text)) = .ok slot) :
    readLines line offset (text :: texts) =
      (readLines (line + 1) (offset + byteLength text + 1) texts).map (slot :: ·) := by
  rw [readLines, h]
  cases readLines (line + 1) (offset + byteLength text + 1) texts <;> rfl

theorem readLines_eq_ok_iff {slots : List (Option Instruction)} :
    readLines line offset texts = .ok slots ↔ texts.map decode = slots.map Except.ok := by
  induction texts generalizing line offset slots with
  | nil => cases slots <;> simp [readLines]
  | cons text texts ih =>
    have hd := readLine_decode line offset text
    rw [List.map_cons]
    cases hr : readSlot line (words offset (dropReturn text)) with
    | error e =>
      rw [hr] at hd
      rw [readLines_cons_error hr, ← hd]
      cases slots <;> simp [Except.mapError]
    | ok slot =>
      rw [hr] at hd
      rw [readLines_cons_ok hr, ← hd]
      cases slots with
      | nil => cases readLines (line + 1) (offset + byteLength text + 1) texts <;> simp [Except.map]
      | cons s slots =>
        rw [List.map_cons, List.cons.injEq, ← @ih (line + 1) (offset + byteLength text + 1)]
        cases readLines (line + 1) (offset + byteLength text + 1) texts <;>
          simp [Except.map, Except.mapError]

theorem readLines_eq_error {before after : List (List Char)} {fault : Fault}
    (hb : ∀ earlier ∈ before, ∃ slot, decode earlier = .ok slot)
    (hf : decode text = .error fault) :
    ∃ error, readLines line offset (before ++ text :: after) = .error error ∧
      error.line = line + before.length ∧ error.fault = fault := by
  induction before generalizing line offset with
  | nil =>
    have hd := readLine_decode line offset text
    cases hr : readSlot line (words offset (dropReturn text)) with
    | error e =>
      rw [hr, hf] at hd
      cases hd
      exact ⟨e, readLines_cons_error hr, readSlot_line hr, rfl⟩
    | ok slot => rw [hr, hf] at hd; cases hd
  | cons earlier before ih =>
    rw [List.forall_mem_cons] at hb
    obtain ⟨⟨slot, hs⟩, hb⟩ := hb
    obtain ⟨e, he, hl, hx⟩ := @ih (line + 1) (offset + byteLength earlier + 1) hb
    refine ⟨e, ?_, by rw [hl, List.length_cons]; omega, hx⟩
    rw [List.cons_append, readLines_cons_ok (readLine_eq_ok_iff.2 hs), he]
    rfl

end Assembly

namespace Program

theorem mem_entries {program : Program} {i : Fin programSize} {instruction : Instruction} :
    (i, instruction) ∈ program.entries ↔ program.slots.get i = some instruction := by
  simp [entries, List.mem_filterMap]

theorem entries_sorted (program : Program) : (program.entries.map Prod.fst).Pairwise (· < ·) := by
  rw [List.pairwise_map, entries, List.pairwise_filterMap]
  refine (List.pairwise_lt_finRange programSize).imp fun hlt a ha b hb => ?_
  obtain ⟨x, -, rfl⟩ := Option.map_eq_some_iff.1 ha
  obtain ⟨y, -, rfl⟩ := Option.map_eq_some_iff.1 hb
  exact hlt

theorem get?_eq_some_iff {program : Program} {address : Address} {instruction : Instruction} :
    program.get? address = some instruction ↔
      ∃ i : Fin programSize, i.val = address.toNat ∧ (i, instruction) ∈ program.entries := by
  rw [get?, Option.join_eq_some_iff, Vector.getElem?_eq_some_iff]
  constructor
  · rintro ⟨h, hs⟩
    exact ⟨⟨address.toNat, h⟩, rfl, mem_entries.2 hs⟩
  · rintro ⟨⟨i, h⟩, rfl, hm⟩
    exact ⟨h, mem_entries.1 hm⟩

theorem ofSource_eq_ok_iff {source : String} {program : Program} :
    ofSource source = .ok program ↔
      ∃ slots, ((Assembly.lines source).take programSize).map Assembly.decode =
        slots.map Except.ok ∧ program = ofList slots := by
  rw [ofSource]
  constructor
  · intro h
    cases hr : Assembly.readLines 1 0 ((Assembly.lines source).take programSize) with
    | error e => rw [hr] at h; cases h
    | ok slots =>
      rw [hr] at h
      exact ⟨slots, Assembly.readLines_eq_ok_iff.1 hr, (Except.ok.inj h).symm⟩
  · rintro ⟨slots, hs, rfl⟩
    rw [Assembly.readLines_eq_ok_iff.2 hs]
    rfl

theorem exists_ofSource {source : String}
    (h : ∀ i < programSize, ∀ line, (Assembly.lines source)[i]? = some line →
      ∃ slot, Assembly.decode line = .ok slot) :
    ∃ program, ofSource source = .ok program := by
  let slotOf (line : List Char) : Option Instruction := (Assembly.decode line).toOption.join
  refine ⟨_, ofSource_eq_ok_iff.2
    ⟨((Assembly.lines source).take programSize).map slotOf, ?_, rfl⟩⟩
  rw [List.map_map]
  refine List.map_congr_left fun line hm => ?_
  obtain ⟨i, hi⟩ := List.mem_iff_getElem?.1 hm
  rw [List.getElem?_take] at hi
  split at hi
  · next hlt =>
    obtain ⟨slot, hs⟩ := h i hlt line hi
    simp only [Function.comp_apply, slotOf, hs]
    rfl
  · cases hi

theorem slots_of_decode {texts : List (List Char)} {slots : List (Option Instruction)}
    (h : (texts.take programSize).map Assembly.decode = slots.map Except.ok) (i : Fin programSize) :
    (∀ text, texts[i.val]? = some text → Assembly.decode text = .ok ((ofList slots).slots.get i)) ∧
      (texts[i.val]? = none → (ofList slots).slots.get i = none) := by
  have hi := congrArg (fun results => results[i.val]?) h
  simp only [List.getElem?_map, List.getElem?_take_of_lt i.isLt] at hi
  have hs : (ofList slots).slots.get i = slots[i.val]?.join := by
    simp [ofList]
  rw [hs]
  cases hl : slots[i.val]? with
  | none =>
    rw [hl, Option.map_none, Option.map_eq_none_iff] at hi
    refine ⟨fun text ht => ?_, fun _ => rfl⟩
    rw [hi] at ht
    cases ht
  | some slot =>
    rw [hl, Option.map_some] at hi
    obtain ⟨text, ht, hd⟩ := Option.map_eq_some_iff.1 hi
    constructor
    · intro text' ht'
      rw [← Option.some.inj (ht.symm.trans ht')]
      exact hd
    · intro hn
      rw [ht] at hn
      cases hn

theorem ofSource_eq_error {source : String} {i : Nat} (hi : i < programSize) {line : List Char}
    {fault : Assembly.Fault} (hl : (Assembly.lines source)[i]? = some line)
    (hf : Assembly.decode line = .error fault)
    (hb : ∀ j < i, ∀ earlier, (Assembly.lines source)[j]? = some earlier →
      ∃ slot, Assembly.decode earlier = .ok slot) :
    ∃ error, ofSource source = .error error ∧ error.line = i + 1 ∧ error.fault = fault := by
  let texts := (Assembly.lines source).take programSize
  have ht : texts[i]? = some line := by rw [List.getElem?_take_of_lt hi, hl]
  obtain ⟨hlt, hg⟩ := List.getElem?_eq_some_iff.1 ht
  have hsplit : texts = texts.take i ++ line :: texts.drop (i + 1) := by
    rw [← hg, List.getElem_cons_drop, List.take_append_drop]
  have hbefore : ∀ earlier ∈ texts.take i, ∃ slot, Assembly.decode earlier = .ok slot := by
    intro earlier hm
    obtain ⟨j, hj⟩ := List.mem_iff_getElem?.1 hm
    rw [List.getElem?_take, List.getElem?_take] at hj
    split at hj
    · next hji =>
      rw [if_pos (Nat.lt_trans hji hi)] at hj
      exact hb j hji earlier hj
    · cases hj
  obtain ⟨error, he, hn, hx⟩ :=
    @Assembly.readLines_eq_error 1 0 line (texts.take i) (texts.drop (i + 1)) fault hbefore hf
  rw [← hsplit] at he
  refine ⟨error, ?_, ?_, hx⟩
  · rw [ofSource, he]
    rfl
  · rw [hn, List.length_take_of_le (Nat.le_of_lt hlt), Nat.add_comm]

/-- A source text is read as the grammar says, and its first fault is reported. -/
theorem ofSource_decodes (source : String) :
    let lines := source.toList.splitOn '\n'
    ((∃ program, ofSource source = .ok program) ↔
      ∀ i < 128, ∀ line, lines[i]? = some line → ∃ slot, Assembly.decode line = .ok slot) ∧
    (∀ program, ofSource source = .ok program →
      program.slots.toList.length = 128 ∧
      (∀ i : Fin programSize,
        (∀ line, lines[i.val]? = some line → Assembly.decode line = .ok (program.slots.get i)) ∧
        (lines[i.val]? = none → program.slots.get i = none)) ∧
      (program.entries.map Prod.fst).Pairwise (· < ·) ∧
      ∀ address instruction, program.get? address = some instruction ↔
        ∃ i : Fin programSize, i.val = address.toNat ∧ (i, instruction) ∈ program.entries) ∧
    ∀ i < 128, ∀ line fault, lines[i]? = some line → Assembly.decode line = .error fault →
      (∀ j < i, ∀ earlier, lines[j]? = some earlier →
        ∃ slot, Assembly.decode earlier = .ok slot) →
      ∃ error, ofSource source = .error error ∧ error.line = i + 1 ∧ error.fault = fault := by
  intro lines
  refine ⟨⟨?_, exists_ofSource⟩, ?_, fun i hi line fault hl hf => ofSource_eq_error hi hl hf⟩
  · rintro ⟨program, hp⟩ i hi line hl
    obtain ⟨slots, hs, -⟩ := ofSource_eq_ok_iff.1 hp
    exact ⟨_, (slots_of_decode hs ⟨i, hi⟩).1 line hl⟩
  · intro program hp
    obtain ⟨slots, hs, rfl⟩ := ofSource_eq_ok_iff.1 hp
    exact ⟨Vector.length_toList, slots_of_decode hs, entries_sorted _,
      fun _ _ => get?_eq_some_iff⟩

end Program

end Accumulator
