import Accumulator.Proofs.Allocation
import Accumulator.Proofs.History

namespace Accumulator

namespace SymbolTable

variable {table : SymbolTable} {label : String}

theorem address?_eq_some_iff {address : Address} :
    table.address? label = some address ↔
      ∃ i, table.labels[i]? = some label ∧ addressOf i = address := by
  rw [address?, Option.map_eq_some_iff]
  exact exists_congr fun i => and_congr_left fun _ => table.agree label i

/-- As long as 16 bits hold all its places, a table can be read in both directions. -/
theorem address?_eq_some_iff_label? (h : dataStart + table.labels.size ≤ UInt16.size)
    {address : Address} :
    table.address? label = some address ↔ table.label? address = some label := by
  have hb {i : Nat} (hi : table.labels[i]? = some label) : dataStart + i < UInt16.size := by
    have hlt := (Array.getElem?_eq_some_iff.1 hi).1
    omega
  rw [address?_eq_some_iff, label?]
  constructor
  · rintro ⟨i, hi, rfl⟩
    rw [toNat_addressOf (hb hi), if_pos (Nat.le_add_right _ _), Nat.add_sub_cancel_left, hi]
  · intro hl
    split at hl
    · next hs =>
      refine ⟨address.toNat - dataStart, hl, UInt16.toNat_inj.1 ?_⟩
      rw [toNat_addressOf (hb hl), Nat.add_sub_cancel' hs]
    · cases hl

theorem labels_prefix_intern (table : SymbolTable) (label : String) :
    table.labels.toList <+: (table.intern label).2.labels.toList := by
  rw [labels_intern]
  split
  · exact List.prefix_rfl
  · rw [Array.toList_push]
    exact List.prefix_append _ _

end SymbolTable

namespace Allocated

variable {program : Program} {state : State}

theorem dataIndex?_of_label (h : Allocated program state) {i : Nat} {label : String}
    (hi : state.symbols.labels[i]? = some label) :
    ∃ hlt : i < dataSize, (state.symbols.address? label).bind dataIndex? = some ⟨i, hlt⟩ := by
  have hlt : i < dataSize := lt_of_lt_of_le (Array.getElem?_eq_some_iff.1 hi).1 h.size_le
  refine ⟨hlt, ?_⟩
  rw [state.symbols.address?_of_getElem? label hi, Option.bind_some,
    SymbolTable.dataIndex?_addressOf hlt]

theorem toNat_address? (h : Allocated program state) {i : Nat} {label : String}
    (hi : state.symbols.labels[i]? = some label) :
    (state.symbols.address? label).map UInt16.toNat = some (dataStart + i) := by
  have hlt : i < dataSize := lt_of_lt_of_le (Array.getElem?_eq_some_iff.1 hi).1 h.size_le
  have hs : dataStart + i < UInt16.size := lt_of_lt_of_le (Nat.add_lt_add_left hlt _) (by decide)
  rw [state.symbols.address?_of_getElem? label hi, Option.map_some, SymbolTable.toNat_addressOf hs]

theorem eq_of_dataIndex? (h : Allocated program state) {label other : String}
    (hl : label ∈ state.symbols.labels) (ho : other ∈ state.symbols.labels)
    (he : (state.symbols.address? label).bind dataIndex? =
      (state.symbols.address? other).bind dataIndex?) : label = other := by
  obtain ⟨i, hi⟩ := Array.mem_iff_getElem?.1 hl
  obtain ⟨j, hj⟩ := Array.mem_iff_getElem?.1 ho
  obtain ⟨_, hwi⟩ := h.dataIndex?_of_label hi
  obtain ⟨_, hwj⟩ := h.dataIndex?_of_label hj
  rw [hwi, hwj, Option.some.injEq, Fin.mk.injEq] at he
  subst he
  exact Option.some.inj (hi.symm.trans hj)

theorem address?_eq_some_iff_label? (h : Allocated program state) {label : String}
    {address : Address} :
    state.symbols.address? label = some address ↔ state.symbols.label? address = some label :=
  SymbolTable.address?_eq_some_iff_label?
    (le_trans (Nat.add_le_add_left h.size_le dataStart) (by decide))

end Allocated

namespace Machine

variable {machine : Machine}

theorem allocated_invariant :
    Invariant fun machine => Allocated machine.program machine.state where
  fresh _ := Allocated.init
  load _ h := allocated_load h
  step h := by rw [step_program]; exact allocated_step h
  setLimit _ h := h
  setTrace _ h := h

theorem dataIndex?_of_next? (h : Allocated machine.program machine.state) {label : String}
    {instruction : Instruction} (hn : machine.next? = some instruction)
    (hl : instruction.label? = some label) :
    ∃ word, dataIndex? (machine.state.intern label).1 = some word := by
  obtain ⟨i, -, hi⟩ := h.intern_place (mem_labels_of_next? hn hl)
  exact ⟨i, hi⟩

theorem labels_prefix_step (machine : Machine) :
    machine.state.symbols.labels.toList <+: machine.step.state.symbols.labels.toList := by
  rw [machine.step_memory.1]
  cases machine.next? with
  | none => exact List.prefix_rfl
  | some instruction =>
    rw [Option.elim_some, Instruction.execute_symbols]
    cases instruction.label? with
    | none => exact List.prefix_rfl
    | some label => exact machine.state.symbols.labels_prefix_intern label

theorem labels_prefix_iterate (machine : Machine) (n : Nat) :
    machine.state.symbols.labels.toList <+: (step^[n] machine).state.symbols.labels.toList := by
  induction n with
  | zero => exact List.prefix_rfl
  | succ n ih =>
    rw [Function.iterate_succ_apply']
    exact ih.trans (labels_prefix_step _)

theorem labels_prefix_run (machine : Machine) :
    machine.state.symbols.labels.toList <+: machine.run.2.state.symbols.labels.toList := by
  obtain ⟨k, -, -, -, hr⟩ := run_eq_iterate machine
  rw [hr]
  exact labels_prefix_iterate machine k

theorem labels_prefix_apply (machine : Machine) {operation : Operation}
    (h : ∀ source, operation = .load source →
      ∃ error, Program.ofSource source = .error error) :
    machine.state.symbols.labels.toList <+:
      (operation.apply machine).state.symbols.labels.toList := by
  cases operation with
  | load source =>
    obtain ⟨error, he⟩ := h source rfl
    have hl : machine.load source = .error error := by
      rw [load, he]
      rfl
    rw [Operation.apply, hl]
    exact List.prefix_rfl
  | step => exact labels_prefix_step machine
  | run => exact labels_prefix_run machine
  | setLimit limit | setTrace trace => exact List.prefix_rfl

theorem labels_prefix_foldl (machine : Machine) {operations : List Operation}
    (h : ∀ source, .load source ∈ operations → ∃ error, Program.ofSource source = .error error) :
    machine.state.symbols.labels.toList <+:
      (operations.foldl Operation.apply machine).state.symbols.labels.toList := by
  induction operations generalizing machine with
  | nil => exact List.prefix_rfl
  | cons operation operations ih =>
    have hf := labels_prefix_apply machine fun source he => h source (he ▸ List.mem_cons_self)
    exact hf.trans (ih _ fun source hm => h source (List.mem_cons_of_mem operation hm))

/-- Memory has a word for each variable that a loaded program can mention, and no two variables
share one. -/
theorem after_places_variables (limit : UInt32) (operations : List Operation) :
    let machine := after limit operations
    let table := machine.state.symbols
    table.labels.size ≤ 128 ∧
      (∀ label ∈ table.labels, ∃ i : Fin programSize,
        ∃ instruction ∈ [Instruction.dec label, .lda label, .str label],
          machine.program.slots.get i = some instruction) ∧
      (∀ (i : Nat) label, table.labels[i]? = some label →
        (table.address? label).map UInt16.toNat = some (128 + i)) ∧
      (∀ label ∈ table.labels, ∃ word, (table.address? label).bind dataIndex? = some word) ∧
      (∀ label ∈ table.labels, ∀ other ∈ table.labels,
        (table.address? label).bind dataIndex? = (table.address? other).bind dataIndex? →
        label = other) ∧
      (∀ label address, table.address? label = some address ↔
        table.label? address = some label) ∧
      (∀ i : Fin dataSize, table.labels.size ≤ i.val → machine.state.data.get i = 0) ∧
      (∀ n label, ∀ instruction ∈ [Instruction.dec label, .lda label, .str label],
        (step^[n] machine).next? = some instruction →
        ∃ word, dataIndex? ((step^[n] machine).state.intern label).1 = some word) ∧
      ∀ later,
        (∀ source, .load source ∈ later → ∃ error, Program.ofSource source = .error error) →
        table.labels.toList <+: (after limit (operations ++ later)).state.symbols.labels.toList := by
  intro machine table
  have ha : Allocated machine.program machine.state := allocated_invariant.after limit operations
  refine ⟨ha.size_le, ?_, ?_, ?_, ?_, ?_, ha.unused, ?_, ?_⟩
  · exact fun label hl => Program.mem_labels_iff.1 (ha.mentioned label hl)
  · exact fun i label hi => ha.toNat_address? hi
  · intro label hl
    obtain ⟨i, hi⟩ := Array.mem_iff_getElem?.1 hl
    obtain ⟨hlt, hw⟩ := ha.dataIndex?_of_label hi
    exact ⟨⟨i, hlt⟩, hw⟩
  · exact fun label hl other ho he => ha.eq_of_dataIndex? hl ho he
  · exact fun label address => ha.address?_eq_some_iff_label?
  · intro n label instruction hm hn
    have hi := allocated_invariant.iterate ha n
    exact dataIndex?_of_next? hi hn (Instruction.label?_eq_some_iff.2 hm)
  · intro later hf
    rw [after, List.foldl_append]
    exact labels_prefix_foldl machine hf

end Machine

end Accumulator
