import Accumulator.Proofs.Cycle
import Accumulator.Proofs.Symbols

namespace Accumulator

/-- The variables that a program can mention, once for each mention. -/
def Program.labels (program : Program) : List String :=
  program.slots.toList.filterMap fun slot => slot.bind Instruction.label?

/-- Each variable has a word of its own, since there are as many words as there are slots to mention
a variable. The words that belong to no variable were never written. -/
structure Allocated (program : Program) (state : State) : Prop where
  mentioned : ∀ label ∈ state.symbols.labels, label ∈ program.labels
  unused : ∀ i : Fin dataSize, state.symbols.labels.size ≤ i.val → state.data.get i = 0

namespace Program

variable {program : Program}

theorem length_labels_le : program.labels.length ≤ programSize := by
  have h := List.length_filterMap_le (fun slot : Option Instruction => slot.bind Instruction.label?)
    program.slots.toList
  rwa [Vector.length_toList] at h

theorem mem_labels {i : Fin programSize} {instruction : Instruction} {label : String}
    (hi : program.slots.get i = some instruction) (hl : instruction.label? = some label) :
    label ∈ program.labels := by
  refine List.mem_filterMap.2 ⟨some instruction, ?_, by rw [Option.bind_some, hl]⟩
  rw [← hi, Vector.mem_toList_iff]
  exact Vector.getElem_mem i.isLt

theorem mem_labels_iff {label : String} :
    label ∈ program.labels ↔ ∃ i : Fin programSize,
      ∃ instruction ∈ [Instruction.dec label, .lda label, .str label],
        program.slots.get i = some instruction := by
  constructor
  · intro h
    obtain ⟨slot, hs, hl⟩ := List.mem_filterMap.1 h
    obtain ⟨instruction, rfl, hi⟩ := Option.bind_eq_some_iff.1 hl
    obtain ⟨i, hlt, hg⟩ := Vector.mem_iff_getElem.1 (Vector.mem_toList_iff.1 hs)
    exact ⟨⟨i, hlt⟩, instruction, Instruction.label?_eq_some_iff.1 hi, hg⟩
  · rintro ⟨i, instruction, hm, hi⟩
    exact mem_labels hi (Instruction.label?_eq_some_iff.2 hm)

theorem mem_labels_of_fetch? {state : State} {instruction : Instruction} {label : String}
    (h : program.fetch? state = some instruction) (hl : instruction.label? = some label) :
    label ∈ program.labels := by
  obtain ⟨i, -, hi⟩ := Option.bind_eq_some_iff.1 h
  exact mem_labels hi hl

end Program

namespace Allocated

variable {program : Program} {state : State}

theorem init : Allocated program {} where
  mentioned label h := by simp at h
  unused i _ := by simp

theorem size_le (h : Allocated program state) : state.symbols.labels.size ≤ dataSize := by
  -- the labels are distinct and each is mentioned in a slot, so there are no more of them than slots
  have hs : state.symbols.labels.toList ⊆ program.labels := fun label hl =>
    h.mentioned label (Array.mem_toList_iff.1 hl)
  have hp := (List.subperm_of_subset state.symbols.labels_nodup hs).length_le
  rw [Array.length_toList] at hp
  exact hp.trans Program.length_labels_le

theorem of_memory (h : Allocated program state) {next : State}
    (hs : next.symbols = state.symbols) (hd : next.data = state.data) : Allocated program next where
  mentioned := by rw [hs]; exact h.mentioned
  unused := by rw [hs, hd]; exact h.unused

theorem intern (h : Allocated program state) {label : String} (hl : label ∈ program.labels) :
    Allocated program (state.intern label).2 where
  mentioned l hm := by
    rcases (state.symbols.mem_labels_intern label).1 hm with hm | rfl
    · exact h.mentioned l hm
    · exact hl
  unused i hi := by
    refine h.unused i (le_trans ?_ hi)
    change state.symbols.labels.size ≤ (state.symbols.intern label).2.labels.size
    rw [SymbolTable.labels_intern]
    split
    · exact le_rfl
    · rw [Array.size_push]; omega

theorem intern_place (h : Allocated program state) {label : String} (hl : label ∈ program.labels) :
    ∃ i : Fin dataSize, (state.intern label).2.symbols.labels[i.val]? = some label ∧
      dataIndex? (state.intern label).1 = some i := by
  obtain ⟨i, hi, ha⟩ := state.symbols.intern_fst label
  have hb := (Array.getElem?_eq_some_iff.1 hi).1
  have hlt : i < dataSize := lt_of_lt_of_le hb (h.intern hl).size_le
  refine ⟨⟨i, hlt⟩, hi, ?_⟩
  change dataIndex? (state.symbols.intern label).1 = some ⟨i, hlt⟩
  rw [ha, SymbolTable.dataIndex?_addressOf hlt]

theorem set_data (h : Allocated program state) {i : Fin dataSize} {label : String}
    (hi : state.symbols.labels[i.val]? = some label) (value : Int32) :
    Allocated program { state with data := state.data.set i value i.isLt } where
  mentioned := h.mentioned
  unused j hj := by
    have hb := (Array.getElem?_eq_some_iff.1 hi).1
    have hne : i.val ≠ j.val := (lt_of_lt_of_le hb hj).ne
    rw [Vector.get_eq_getElem, Vector.getElem_set_ne i.isLt j.isLt hne, ← Vector.get_eq_getElem]
    exact h.unused j hj

theorem store_intern (h : Allocated program state) {label : String} (hl : label ∈ program.labels)
    (value : Int32) :
    Allocated program ((state.intern label).2.store (state.intern label).1 value) := by
  obtain ⟨i, hi, ha⟩ := h.intern_place hl
  rw [State.store_of_dataIndex? _ ha]
  exact (h.intern hl).set_data hi value

theorem execute (h : Allocated program state) {instruction : Instruction}
    (hm : ∀ label, instruction.label? = some label → label ∈ program.labels) :
    Allocated program (instruction.execute state) := by
  cases hl : instruction.label? with
  | none =>
    have hs := instruction.execute_symbols state
    rw [hl, Option.elim_none] at hs
    exact h.of_memory hs (Instruction.execute_data hl state)
  | some label =>
    have hp := hm label hl
    cases instruction with
    | dec l => cases hl; exact h.store_intern hp 0
    | str l => cases hl; exact h.store_intern hp state.accumulator
    | lda l => cases hl; exact (h.intern hp).of_memory rfl rfl
    | ldi _ | xch | add | sub | jmp _ | jzs _ | jvs _ | hlt =>
      simp [Instruction.label?, Instruction.operand?] at hl

end Allocated

namespace Machine

variable {machine : Machine}

theorem mem_labels_of_next? {instruction : Instruction} {label : String}
    (h : machine.next? = some instruction) (hl : instruction.label? = some label) :
    label ∈ machine.program.labels := by
  unfold next? at h
  split at h
  · cases h
  · exact Program.mem_labels_of_fetch? h hl

/-- One of the first `n` steps executes an instruction that mentions the variable. -/
def Mentions (machine : Machine) (n : Nat) (label : String) : Prop :=
  ∃ k < n, ∃ instruction, (step^[k] machine).next? = some instruction ∧
    instruction.label? = some label

theorem mem_labels_step {label : String} :
    label ∈ machine.step.state.symbols.labels ↔ label ∈ machine.state.symbols.labels ∨
      ∃ instruction, machine.next? = some instruction ∧ instruction.label? = some label := by
  rw [machine.step_memory.1]
  cases machine.next? with
  | none => simp
  | some instruction =>
    rw [Option.elim_some, Instruction.execute_symbols]
    cases hl : instruction.label? with
    | none => simp [hl]
    | some l =>
      rw [Option.elim_some, SymbolTable.mem_labels_intern]
      simp [hl, eq_comm]

/-- The symbol table holds the variables that executed instructions have mentioned. -/
theorem mem_labels_iterate {label : String} (n : Nat) :
    label ∈ (step^[n] machine).state.symbols.labels ↔
      label ∈ machine.state.symbols.labels ∨ machine.Mentions n label := by
  induction n with
  | zero => simp [Mentions]
  | succ n ih =>
    rw [Function.iterate_succ_apply', mem_labels_step, ih, or_assoc]
    refine or_congr_right ⟨?_, ?_⟩
    · rintro (⟨k, hk, he⟩ | he)
      · exact ⟨k, hk.trans n.lt_succ_self, he⟩
      · exact ⟨n, n.lt_succ_self, he⟩
    · rintro ⟨k, hk, he⟩
      rcases Nat.lt_succ_iff_lt_or_eq.1 hk with hk | rfl
      · exact Or.inl ⟨k, hk, he⟩
      · exact Or.inr he

theorem allocated_load {start : Machine} {source : String} (h : start.load source = .ok machine) :
    Allocated machine.program machine.state := by
  obtain ⟨program, -, rfl⟩ := load_eq_ok h
  exact Allocated.init

theorem allocated_step (h : Allocated machine.program machine.state) :
    Allocated machine.program machine.step.state := by
  obtain ⟨hs, hd⟩ := machine.step_memory
  cases hn : machine.next? with
  | none =>
    rw [hn] at hs hd
    exact h.of_memory hs hd
  | some instruction =>
    rw [hn] at hs hd
    exact (h.execute fun label hl => mem_labels_of_next? hn hl).of_memory hs hd

theorem allocated_iterate (h : Allocated machine.program machine.state) (n : Nat) :
    Allocated machine.program (step^[n] machine).state := by
  induction n with
  | zero => exact h
  | succ n ih =>
    rw [Function.iterate_succ_apply']
    rw [← step_iterate_program n] at ih
    have hs := allocated_step ih
    rwa [step_iterate_program] at hs

end Machine

end Accumulator
