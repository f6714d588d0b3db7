import Accumulator.Proofs.Allocation
import Accumulator.Proofs.Run

namespace Accumulator

variable {r : String → String}

def Instruction.rename (r : String → String) : Instruction → Instruction
  | dec label => dec (r label)
  | lda label => lda (r label)
  | str label => str (r label)
  | instruction => instruction

def Program.rename (r : String → String) (program : Program) : Program :=
  ⟨program.slots.map (Option.map (Instruction.rename r))⟩

theorem Program.get_rename (program : Program) (i : Fin programSize) :
    (program.rename r).slots.get i = (program.slots.get i).map (Instruction.rename r) :=
  Vector.getElem_map _ i.isLt

namespace SymbolTable

variable {table other : SymbolTable} {label : String}

theorem mem_labels_rename (h : other.labels = table.labels.map r)
    (hr : ∀ l ∈ table.labels, r l = r label → l = label) :
    r label ∈ other.labels ↔ label ∈ table.labels := by
  simp only [h, Array.mem_map]
  constructor
  · rintro ⟨l, hl, he⟩
    exact hr l hl he ▸ hl
  · exact fun hl => ⟨label, hl, rfl⟩

theorem getElem?_rename (h : other.labels = table.labels.map r) {i : Nat}
    (hi : table.labels[i]? = some label) : other.labels[i]? = some (r label) := by
  simp only [h, Array.getElem?_map, hi, Option.map_some]

theorem labels_intern_rename (h : other.labels = table.labels.map r)
    (hr : ∀ l ∈ table.labels, r l = r label → l = label) :
    (other.intern (r label)).2.labels = (table.intern label).2.labels.map r := by
  simp only [labels_intern, mem_labels_rename h hr]
  split
  · exact h
  · simp only [h, Array.map_push]

theorem intern_rename_fst (h : other.labels = table.labels.map r)
    (hr : ∀ l ∈ table.labels, r l = r label → l = label) :
    (other.intern (r label)).1 = (table.intern label).1 := by
  obtain ⟨i, hi, ha⟩ := table.intern_fst label
  obtain ⟨j, hj, hb⟩ := other.intern_fst (r label)
  have hr' := getElem?_rename (labels_intern_rename h hr) hi
  rw [ha, hb, position_unique hj hr']

theorem address?_rename (h : other.labels = table.labels.map r)
    (hr : ∀ l ∈ table.labels, r l = r label → l = label) :
    other.address? (r label) = table.address? label := by
  by_cases hl : label ∈ table.labels
  · obtain ⟨i, hi⟩ := Array.mem_iff_getElem?.1 hl
    rw [table.address?_of_getElem? label hi, other.address?_of_getElem? _ (getElem?_rename h hi)]
  · have ho : r label ∉ other.labels := mt (mem_labels_rename h hr).1 hl
    rw [(table.address?_eq_none_iff label).2 hl, (other.address?_eq_none_iff _).2 ho]

theorem label?_rename (h : other.labels = table.labels.map r) (address : Address) :
    other.label? address = (table.label? address).map r := by
  simp only [label?, h, Array.getElem?_map]
  split <;> rfl

end SymbolTable

/-- The names of the variables apart, the other state is the same. -/
structure State.Renamed (r : String → String) (state other : State) : Prop where
  labels : other.symbols.labels = state.symbols.labels.map r
  rest : other = { state with symbols := other.symbols }

namespace State.Renamed

variable {state other : State}

theorem of_labels {symbols : SymbolTable} (h : symbols.labels = state.symbols.labels.map r) :
    state.Renamed r { state with symbols } := ⟨h, rfl⟩

/-- Every state with other names is the state itself with another symbol table. -/
theorem exists_symbols (h : state.Renamed r other) :
    ∃ symbols : SymbolTable, symbols.labels = state.symbols.labels.map r ∧
      other = { state with symbols } :=
  ⟨other.symbols, h.labels, h.rest⟩

theorem counter (h : state.Renamed r other) : other.counter = state.counter := by
  rw [h.rest]

theorem halted (h : state.Renamed r other) : other.halted = state.halted := by
  rw [h.rest]

theorem data (h : state.Renamed r other) : other.data = state.data := by
  rw [h.rest]

theorem advance (h : state.Renamed r other) : state.advance.Renamed r other.advance := by
  obtain ⟨symbols, hl, rfl⟩ := h.exists_symbols
  exact of_labels hl

theorem halt (h : state.Renamed r other) :
    State.Renamed r { state with halted := true } { other with halted := true } := by
  obtain ⟨symbols, hl, rfl⟩ := h.exists_symbols
  exact of_labels hl

theorem store (h : state.Renamed r other) (address : Address) (value : Int32) :
    (state.store address value).Renamed r (other.store address value) := by
  obtain ⟨symbols, hl, rfl⟩ := h.exists_symbols
  cases hw : dataIndex? address with
  | none => simpa only [State.store, hw] using of_labels hl
  | some i =>
    simp only [State.store, hw]
    exact of_labels hl

theorem dataAt? (h : state.Renamed r other) (address : Address) :
    other.dataAt? address = state.dataAt? address := by
  simp only [State.dataAt?, h.data]

theorem intern (h : state.Renamed r other) {label : String}
    (hr : ∀ l ∈ state.symbols.labels, r l = r label → l = label) :
    (other.intern (r label)).1 = (state.intern label).1 ∧
      (state.intern label).2.Renamed r (other.intern (r label)).2 := by
  refine ⟨SymbolTable.intern_rename_fst h.labels hr,
    SymbolTable.labels_intern_rename h.labels hr, ?_⟩
  obtain ⟨symbols, -, rfl⟩ := h.exists_symbols
  rfl

theorem valueOf? (h : state.Renamed r other) {label : String}
    (hr : ∀ l ∈ state.symbols.labels, r l = r label → l = label) :
    other.valueOf? (r label) = state.valueOf? label := by
  have hd : other.dataAt? = state.dataAt? := funext h.dataAt?
  simp only [State.valueOf?, SymbolTable.address?_rename h.labels hr, hd]

theorem advances (h : state.Renamed r other) (instruction : Instruction) :
    (instruction.rename r).advances other = instruction.advances state := by
  obtain ⟨symbols, -, rfl⟩ := h.exists_symbols
  cases instruction <;> rfl

theorem execute (h : state.Renamed r other) {instruction : Instruction}
    (hr : ∀ label, instruction.label? = some label →
      ∀ l ∈ state.symbols.labels, r l = r label → l = label) :
    (instruction.execute state).Renamed r ((instruction.rename r).execute other) := by
  cases instruction with
  | dec label =>
    obtain ⟨ha, hi⟩ := h.intern (hr label rfl)
    simp only [Instruction.rename, Instruction.execute, ha]
    exact hi.store _ _
  | str label =>
    obtain ⟨ha, hi⟩ := h.intern (hr label rfl)
    have hacc : (other.intern (r label)).2.accumulator = (state.intern label).2.accumulator := by
      rw [hi.rest]
    simp only [Instruction.rename, Instruction.execute, ha, hacc]
    exact hi.store _ _
  | lda label =>
    obtain ⟨ha, hi⟩ := h.intern (hr label rfl)
    simp only [Instruction.rename, Instruction.execute, ha, hi.dataAt?]
    obtain ⟨symbols, hl, he⟩ := hi.exists_symbols
    rw [he]
    exact of_labels hl
  | jzs target | jvs target =>
    obtain ⟨symbols, hl, rfl⟩ := h.exists_symbols
    simp only [Instruction.rename, Instruction.execute]
    split <;> exact of_labels hl
  | ldi _ | xch | add | sub | jmp _ | hlt =>
    obtain ⟨symbols, hl, rfl⟩ := h.exists_symbols
    exact of_labels hl

end State.Renamed

theorem State.Renamed.cycle {program : Program} {state other : State} (h : state.Renamed r other)
    (hr : ∀ label ∈ program.labels, ∀ l ∈ state.symbols.labels, r l = r label → l = label) :
    (program.cycle state).Renamed r ((program.rename r).cycle other) := by
  cases hc : slotIndex? state.counter with
  | none =>
    have ho : slotIndex? other.counter = none := by rw [h.counter, hc]
    simpa only [Program.cycle_of_outside hc, Program.cycle_of_outside ho] using h
  | some i =>
    have ho : slotIndex? other.counter = some i := by rw [h.counter, hc]
    have hi := program.get_rename (r := r) i
    cases hs : program.slots.get i with
    | none =>
      rw [hs, Option.map_none] at hi
      rw [Program.cycle_of_empty hc hs, Program.cycle_of_empty ho hi]
      exact h.advance
    | some instruction =>
      rw [hs, Option.map_some] at hi
      have he := h.execute fun label hl => hr label (Program.mem_labels hs hl)
      rw [Program.cycle_of_instruction hc hs, Program.cycle_of_instruction ho hi, h.advances]
      split
      · exact he.advance
      · exact he

namespace Machine

structure Renamed (r : String → String) (machine other : Machine) : Prop where
  program : other.program = machine.program.rename r
  state : machine.state.Renamed r other.state
  rest : other = { machine with program := other.program, state := other.state }

namespace Renamed

variable {machine other : Machine}

theorem exit? (h : machine.Renamed r other) : other.exit? = machine.exit? := by
  have hb : other.hitLimit = machine.hitLimit := by rw [h.rest]
  simp only [Machine.exit?, h.state.halted, h.state.counter, hb]

theorem step (h : machine.Renamed r other) (ha : Allocated machine.program machine.state)
    (hr : Set.InjOn r {label | label ∈ machine.program.labels}) :
    machine.step.Renamed r other.step := by
  obtain ⟨hp, hs, hx⟩ := h
  have hc : other.cycles = machine.cycles := by rw [hx]
  have hl : other.limit = machine.limit := by rw [hx]
  by_cases hh : machine.state.halted = true
  · have ho : other.state.halted = true := hs.halted.trans hh
    rw [step_of_halted hh, step_of_halted ho]
    exact ⟨hp, hs, hx⟩
  · have hh := Bool.eq_false_iff.2 hh
    have ho : other.state.halted = false := hs.halted.trans hh
    by_cases hb : machine.limit ≤ machine.cycles + 1
    · have hb' : other.limit ≤ other.cycles + 1 := by rwa [hc, hl]
      rw [step_at_limit hh hb, step_at_limit ho hb']
      refine ⟨hp, hs.halt, ?_⟩
      rw [hx]
    · have hb' : ¬ other.limit ≤ other.cycles + 1 := by rwa [hc, hl]
      rw [step_below_limit hh hb, step_below_limit ho hb', hp]
      -- the names in the symbol table are among those of the program, which stay apart
      refine ⟨rfl, hs.cycle fun label hm l ht => hr (ha.mentioned l ht) hm, ?_⟩
      rw [hx]

theorem iterate (h : machine.Renamed r other) (ha : Allocated machine.program machine.state)
    (hr : Set.InjOn r {label | label ∈ machine.program.labels}) (n : Nat) :
    (Machine.step^[n] machine).Renamed r (Machine.step^[n] other) := by
  induction n with
  | zero => exact h
  | succ n ih =>
    rw [Function.iterate_succ_apply', Function.iterate_succ_apply']
    apply ih.step
    · rw [step_iterate_program]
      exact allocated_iterate ha n
    · rwa [step_iterate_program]

theorem run (h : machine.Renamed r other) (ha : Allocated machine.program machine.state)
    (hr : Set.InjOn r {label | label ∈ machine.program.labels}) :
    other.run.1 = machine.run.1 ∧ machine.run.2.Renamed r other.run.2 := by
  induction machine using run.induct generalizing other with
  | case1 machine exit hx =>
    rw [run_of_exit? hx, run_of_exit? (h.exit?.trans hx)]
    exact ⟨rfl, h⟩
  | case2 machine hx ih =>
    have hn := exit?_eq_none_iff.1 hx
    have ho := exit?_eq_none_iff.1 (h.exit?.trans hx)
    rw [run_of_not_stopped hn, run_of_not_stopped ho]
    apply ih (h.step ha hr)
    · rw [step_program]
      exact allocated_step ha
    · rwa [step_program]

theorem lookups (h : machine.Renamed r other) (ha : Allocated machine.program machine.state)
    {label : String} (hr : ∀ l ∈ machine.program.labels, r l = r label → l = label) :
    other.state.symbols.address? (r label) = machine.state.symbols.address? label ∧
      other.state.valueOf? (r label) = machine.state.valueOf? label := by
  have hm : ∀ l ∈ machine.state.symbols.labels, r l = r label → l = label :=
    fun l hl => hr l (ha.mentioned l hl)
  exact ⟨SymbolTable.address?_rename h.state.labels hm, h.state.valueOf? hm⟩

end Renamed

theorem renamed_load {start first second : Machine} {source renamed : String}
    (h : start.load source = .ok first) (ho : start.load renamed = .ok second)
    (hp : second.program = first.program.rename r) : first.Renamed r second := by
  obtain ⟨program, -, rfl⟩ := load_eq_ok h
  obtain ⟨program', -, rfl⟩ := load_eq_ok ho
  exact ⟨hp, ⟨by simp, rfl⟩, rfl⟩

/-- Two programs that differ in the names of their variables run alike. A variable of the one has
the word and the value that it has under its other name, and so has every name which is given to no
other variable. -/
theorem load_renames_variables {start first second : Machine} {source renamed : String}
    (h : start.load source = .ok first) (ho : start.load renamed = .ok second)
    (hp : second.program = first.program.rename r)
    (hr : Set.InjOn r {label | label ∈ first.program.labels}) :
    let alike (machine other : Machine) : Prop :=
      machine.Renamed r other ∧
        (∀ address, other.state.symbols.label? address =
          (machine.state.symbols.label? address).map r) ∧
        ∀ label, (∀ l ∈ first.program.labels, r l = r label → l = label) →
          other.state.symbols.address? (r label) = machine.state.symbols.address? label ∧
            other.state.valueOf? (r label) = machine.state.valueOf? label
    (∀ n, alike (step^[n] first) (step^[n] second)) ∧
      second.run.1 = first.run.1 ∧ alike first.run.2 second.run.2 := by
  intro alike
  have ha := allocated_load h
  have hl := renamed_load h ho hp
  have hi (n : Nat) : Allocated (step^[n] first).program (step^[n] first).state := by
    rw [step_iterate_program]
    exact allocated_iterate ha n
  have hs (n : Nat) {other : Machine} (hx : (step^[n] first).Renamed r other) :
      alike (step^[n] first) other := by
    refine ⟨hx, SymbolTable.label?_rename hx.state.labels, fun label hn => ?_⟩
    apply hx.lookups (hi n)
    rwa [step_iterate_program]
  obtain ⟨hx, hy⟩ := hl.run ha hr
  obtain ⟨k, -, -, -, hk⟩ := run_eq_iterate first
  refine ⟨fun n => hs n (hl.iterate ha hr n), hx, ?_⟩
  rw [hk] at hy ⊢
  exact hs k hy

theorem load_renames_variables_swapped :
    ∃ first second, (withLimit 9).load "LDI 7\nSTR a\nLDA b\nSTR a" = .ok first ∧
      (withLimit 9).load "LDI 7\nSTR b\nLDA a\nSTR b" = .ok second ∧
      second.program = first.program.rename (Equiv.swap "a" "b") ∧
      (step^[2] second).state.valueOf? "b" = some 7 ∧
      (step^[4] second).state.symbols.label? 129 = some "a" ∧
      second.run.1 = first.run.1 := by
  have hp : Program.ofSource "LDI 7\nSTR a\nLDA b\nSTR a" = .ok (.ofList
      [some (.ldi 7), some (.str "a"), some (.lda "b"), some (.str "a")]) := by cbv
  have hq : Program.ofSource "LDI 7\nSTR b\nLDA a\nSTR b" = .ok (.ofList
      [some (.ldi 7), some (.str "b"), some (.lda "a"), some (.str "b")]) := by cbv
  have h := load_of_ofSource (withLimit 9) hp
  have ho := load_of_ofSource (withLimit 9) hq
  have hr := (Equiv.swap "a" "b").injective
  obtain ⟨hs, hx, -⟩ := load_renames_variables h ho (by decide +kernel) hr.injOn
  have hv := ((hs 2).2.2 "a" fun l _ he => hr he).2
  have ht := (hs 4).2.1 129
  refine ⟨_, _, h, ho, by decide +kernel, ?_, ht.trans (by decide +kernel), hx⟩
  rw [Equiv.swap_apply_left] at hv
  exact hv.trans (by decide +kernel)

end Machine

end Accumulator
