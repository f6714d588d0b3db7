import Accumulator.Proofs.Ceiling
import Accumulator.Proofs.Halting
import Accumulator.Proofs.Path
import Accumulator.Proofs.RoundTrip

namespace Accumulator

def Instruction.target? : Instruction → Option Int32
  | jmp target | jzs target | jvs target => some target
  | dec _ | ldi _ | lda _ | str _ | xch | add | sub | hlt => none

/-- Each jump leads to a later slot or leaves the program, so that the program has no loops. -/
def Program.Forward (program : Program) : Prop :=
  ∀ i : Fin programSize, ∀ target ∈ (program.slots.get i).bind Instruction.target?,
    target.toInt < 0 ∨ (i.val : Int) < target.toInt

theorem Program.forward_ofList {slots : List (Option Instruction)}
    (h : ∀ slot ∈ slots.zipIdx, ∀ target ∈ slot.1.bind Instruction.target?,
      target.toInt < 0 ∨ (slot.2 : Int) < target.toInt) : (ofList slots).Forward := by
  intro i target ht
  have hg : (ofList slots).slots.get i = slots[i.val]?.join := Vector.getElem_ofFn i.isLt
  rw [hg] at ht
  cases hs : slots[i.val]? with
  | none =>
    rw [hs] at ht
    cases ht
  | some slot =>
    rw [hs] at ht
    exact h (slot, i.val) (List.mk_mem_zipIdx_iff_getElem?.2 hs) target ht

theorem State.not_stopped {state : State} (hh : state.halted = false)
    (hc : 0 ≤ state.counter.toInt ∧ state.counter.toInt < programSize) : ¬ state.Stopped := by
  rintro (ht | ho)
  · rw [hh] at ht
    cases ht
  · exact ho hc

theorem State.exists_slot {state : State} (h : ¬ state.Stopped) :
    ∃ i, slotIndex? state.counter = some i := by
  apply Option.ne_none_iff_exists'.1
  intro hn
  exact h (Or.inr (slotIndex?_isNone_iff.1 (Option.isNone_iff_eq_none.2 hn)))

theorem Instruction.execute_of_not_advances {instruction : Instruction} {state : State}
    (h : instruction.advances state = false) :
    (instruction.execute state).halted = true ∨
      instruction.target? = some (instruction.execute state).counter := by
  cases instruction with
  | hlt => exact Or.inl rfl
  | jmp target => exact Or.inr rfl
  | jzs target =>
    rw [advances_jzs, Bool.not_eq_false'] at h
    simp only [execute, h, if_true]
    exact Or.inr rfl
  | jvs target =>
    rw [advances_jvs, Bool.not_eq_false'] at h
    simp only [execute, h, if_true]
    exact Or.inr rfl
  | dec _ | ldi _ | lda _ | str _ | xch | add | sub => cases h

namespace Program

variable {program : Program} {state : State}

theorem Forward.cycle (hf : program.Forward) {i : Fin programSize}
    (h : slotIndex? state.counter = some i) :
    (program.cycle state).Stopped ∨ (i.val : Int) < (program.cycle state).counter.toInt := by
  have hi := toInt_of_slotIndex? h
  obtain ⟨hn, -⟩ | ⟨j, hj, ⟨-, hc⟩ | ⟨instruction, hs, ⟨ha, hc⟩ | ⟨ha, hc⟩⟩⟩ :=
    program.cycle_cases state
  · rw [h] at hn
    cases hn
  · right
    rw [hc, state.advance_counter h]
    omega
  · right
    have hk := Instruction.execute_counter ha
    rw [hc, State.advance_counter _ (hk ▸ h), hk]
    omega
  · rw [h] at hj
    cases hj
    rw [hc]
    obtain hh | ht := Instruction.execute_of_not_advances ha
    · exact Or.inl (Or.inl hh)
    · obtain hl | hl := hf i (instruction.execute state).counter (by rw [hs]; exact ht)
      · exact Or.inl (Or.inr fun ho => absurd ho.1 (Int.not_le.2 hl))
      · exact Or.inr hl

end Program

namespace Machine

variable {start machine : Machine} {source : String}

/-- The slots that the cycles of a run start from, one after the other. -/
def visited (machine : Machine) : List (Fin programSize) :=
  machine.runPath.filterMap fun machine => slotIndex? machine.state.counter

theorem visited_of_stopped (h : machine.state.Stopped) : machine.visited = [] := by
  rw [visited, runPath_of_stopped h]
  rfl

theorem visited_of_not_stopped (h : ¬ machine.state.Stopped) {i : Fin programSize}
    (hi : slotIndex? machine.state.counter = some i) :
    machine.visited = i :: machine.step.visited := by
  rw [visited, runPath_of_not_stopped h]
  exact List.filterMap_cons_some hi

theorem length_visited (machine : Machine) : machine.visited.length = machine.runPath.length := by
  induction machine using run_induction with
  | stopped machine hs => rw [visited_of_stopped hs, runPath_of_stopped hs]; rfl
  | running machine hs ih =>
    obtain ⟨i, hi⟩ := State.exists_slot hs
    rw [visited_of_not_stopped hs hi, runPath_of_not_stopped hs, List.length_cons, ih,
      List.length_cons]

theorem step_of_forward (hf : machine.program.Forward) {i : Fin programSize}
    (hi : slotIndex? machine.state.counter = some i) :
    machine.step.state.Stopped ∨ (i.val : Int) < machine.step.state.counter.toInt := by
  obtain ⟨hh, hs⟩ | ⟨-, -, hs⟩ | ⟨-, -, hs⟩ := machine.step_cases
  · rw [hs]
    exact Or.inl (Or.inl hh)
  · rw [hs]
    exact Or.inl (Or.inl rfl)
  · rw [hs]
    exact hf.cycle hi

/-- A run of a program without loops goes through later and later slots. -/
theorem visited_increases (hf : machine.program.Forward) :
    machine.visited.Pairwise (· < ·) ∧
      ∀ i ∈ machine.visited, machine.state.counter.toInt ≤ (i.val : Int) := by
  induction machine using run_induction with
  | stopped machine hs =>
    rw [visited_of_stopped hs]
    exact ⟨List.Pairwise.nil, fun i hi => absurd hi List.not_mem_nil⟩
  | running machine hs ih =>
    obtain ⟨i, hi⟩ := State.exists_slot hs
    obtain ⟨hp, hl⟩ := ih (by rwa [step_program])
    have hc := toInt_of_slotIndex? hi
    have hb : ∀ j ∈ machine.step.visited, i < j := by
      intro j hj
      obtain ht | ht := step_of_forward hf hi
      · rw [visited_of_stopped ht] at hj
        cases hj
      · have hle := hl j hj
        exact Fin.lt_def.2 (by omega)
    rw [visited_of_not_stopped hs hi]
    refine ⟨List.pairwise_cons.2 ⟨hb, hp⟩, fun j hj => ?_⟩
    rcases List.mem_cons.1 hj with rfl | hj
    · exact Int.le_of_eq hc
    · have hlt := Fin.lt_def.1 (hb j hj)
      omega

theorem length_runPath_le (hn : machine.visited.Nodup) : machine.runPath.length ≤ programSize := by
  have hl := hn.length_le_card
  rwa [length_visited, Fintype.card_fin] at hl

theorem cycles_of_limitReached (h : start.load source = .ok machine)
    (hx : machine.run.1 = .limitReached) :
    machine.run.2.cycles.toNat = max machine.limit.toNat 1 := by
  by_cases hf : ∀ k ≤ max machine.limit.toNat 1 - 1, ¬ (machine.program.free k).Stopped
  · exact (run_of_free_running h hf).2.2.1
  · have hn : ∃ k, k ≤ max machine.limit.toNat 1 - 1 ∧ (machine.program.free k).Stopped := by
      simpa using hf
    have hk := Nat.find_spec hn
    obtain ⟨he, -⟩ := run_of_free_stopped h hk.1 hk.2 fun j hj hs =>
      Nat.find_min hn hj ⟨by omega, hs⟩
    rw [hx] at he
    split at he <;> cases he

end Machine

namespace Program

def exchanges : Program := ⟨Vector.replicate programSize (some .xch)⟩

theorem get_exchanges (i : Fin programSize) : exchanges.slots.get i = some .xch :=
  Vector.getElem_replicate i.isLt

theorem forward_exchanges : exchanges.Forward := by
  intro i target ht
  rw [get_exchanges] at ht
  cases ht

theorem ofSource_exchanges :
    ofSource (String.intercalate "\n" (List.replicate 128 "XCH")) = .ok exchanges := by
  have hr : exchanges.Readable := by
    intro label hl
    obtain ⟨i, instruction, hm, hi⟩ := mem_labels_iff.1 hl
    rw [get_exchanges] at hi
    cases hi
    simp at hm
  have ht : exchanges.render = String.intercalate "\n" (List.replicate 128 "XCH") := by
    rw [render, exchanges, Vector.toList_replicate, List.map_replicate]
    rfl
  rw [← ht]
  exact ofSource_render hr

theorem free_exchanges {k : Nat} (h : k ≤ programSize) :
    (exchanges.free k).halted = false ∧ (exchanges.free k).counter.toInt = k := by
  induction k with
  | zero => exact ⟨rfl, rfl⟩
  | succ k ih =>
    obtain ⟨hh, hc⟩ := ih (Nat.le_of_succ_le h)
    obtain ⟨i, hi⟩ := State.exists_slot (State.not_stopped hh (by omega))
    rw [free_succ _ hh, cycle_of_instruction hi (get_exchanges i)]
    refine ⟨hh, ?_⟩
    change (exchanges.free k).advance.counter.toInt = _
    rw [State.advance_counter _ hi, hc]
    rfl

end Program

namespace Machine

variable {start machine : Machine} {source : String}

theorem run_exchanges : ∃ machine,
    (withLimit 128).load (String.intercalate "\n" (List.replicate 128 "XCH")) = .ok machine ∧
      machine.program.Forward ∧ machine.run.1 = .limitReached := by
  have hl := load_of_ofSource (withLimit 128) Program.ofSource_exchanges
  refine ⟨_, hl, Program.forward_exchanges, ?_⟩
  refine (run_of_free_running hl fun k hk => ?_).1
  have hk : k < programSize := Nat.lt_of_le_of_lt hk (by decide)
  obtain ⟨hh, hc⟩ := Program.free_exchanges (Nat.le_of_lt hk)
  exact State.not_stopped hh (by rw [hc]; omega)

/-- A program without loops ends on its own before a limit of 129 or more, and no slot comes twice
in its run. A lower limit is too low for some such program. -/
theorem run_ends_without_loops (h : start.load source = .ok machine)
    (hf : machine.program.Forward) (hl : 129 ≤ machine.limit) :
    (machine.run.1 = .halted ∨ machine.run.1 = .outOfProgram) ∧
      machine.run.2.cycles ≤ 128 ∧
      machine.run.2.cycles.toNat = machine.visited.length ∧ machine.visited.Nodup ∧
      ∃ machine,
        (withLimit 128).load (String.intercalate "\n" (List.replicate 128 "XCH")) = .ok machine ∧
          machine.program.Forward ∧ machine.run.1 = .limitReached := by
  have hn : machine.visited.Nodup := (visited_increases hf).1.imp fun hlt => hlt.ne
  have hc : machine.run.2.cycles.toNat = machine.visited.length := by
    rw [length_visited, cycles_run (Countable.load h), (load_cycles h).1]
    exact Nat.zero_add _
  have hb : machine.run.2.cycles.toNat ≤ 128 := by
    rw [hc, length_visited]
    exact length_runPath_le hn
  have hx : machine.run.1 ≠ .limitReached := by
    intro hr
    have ht := cycles_of_limitReached h hr
    rw [UInt32.le_iff_toNat_le] at hl
    have hd : (129 : UInt32).toNat = 129 := rfl
    omega
  refine ⟨?_, UInt32.le_iff_toNat_le.2 hb, hc, hn, run_exchanges⟩
  cases he : machine.run.1 with
  | halted => exact Or.inl rfl
  | limitReached => exact absurd he hx
  | outOfProgram => exact Or.inr rfl

theorem run_ends_without_loops_outside : ∃ machine,
    (withLimit 129).load "SUB\nJZS 3\nHLT\nJMP -1" = .ok machine ∧ machine.program.Forward ∧
      129 ≤ machine.limit ∧ (machine.run.1 = .halted ∨ machine.run.1 = .outOfProgram) ∧
      machine.run.2.cycles ≤ 128 ∧ machine.visited.Nodup := by
  have hp : Program.ofSource "SUB\nJZS 3\nHLT\nJMP -1" = .ok (Program.ofList
      [some .sub, some (.jzs 3), some .hlt, some (.jmp (-1))]) := by
    cbv
  have hl := load_of_ofSource (withLimit 129) hp
  have hf : (Program.ofList
      [some .sub, some (.jzs 3), some .hlt, some (.jmp (-1))]).Forward :=
    Program.forward_ofList (by simp [Instruction.target?])
  obtain ⟨hx, hc, -, hn, -⟩ := run_ends_without_loops hl hf (by decide)
  exact ⟨_, hl, hf, by decide, hx, hc, hn⟩

end Machine

end Accumulator
