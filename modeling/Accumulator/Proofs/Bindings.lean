import Accumulator.Proofs.Allocation
import Accumulator.Proofs.NamedMachine

namespace Accumulator

namespace Bindings

theorem lookup_of_mem {vs : Bindings} (hn : vs.labels.Nodup) {label : String} {value : Int}
    (h : (label, value) ∈ vs) : vs.lookup label = some value := by
  obtain ⟨us, ws, rfl⟩ := List.append_of_mem h
  refine List.lookup_eq_some_iff.2 ⟨us, ws, rfl, fun v hv => ?_⟩
  simp only [labels, List.map_append, List.map_cons, List.nodup_append] at hn
  have hne := hn.2.2 v.1 (List.mem_map_of_mem hv) label List.mem_cons_self
  simpa [bne_iff_ne] using hne.symm

theorem lookup_eq_none {vs : Bindings} {label : String} :
    vs.lookup label = none ↔ label ∉ vs.labels := by
  rw [List.lookup_eq_none_iff, labels, List.mem_map]
  constructor
  · rintro h ⟨v, hv, rfl⟩
    simpa using h v hv
  · intro h v hv
    exact bne_iff_ne.2 fun he => h ⟨v, hv, he.symm⟩

end Bindings

theorem filter_eq_take {α : Type} {p : α → Bool} {xs : List α} {n : Nat}
    (hp : ∀ i (h : i < xs.length), p xs[i] = decide (i < n)) : xs.filter p = xs.take n := by
  induction xs generalizing n with
  | nil => rw [List.filter_nil, List.take_nil]
  | cons x xs ih =>
    have hx : p x = decide (0 < n) := hp 0 (Nat.succ_pos _)
    have hxs : ∀ i (h : i < xs.length), p xs[i] = decide (i < n - 1) := by
      intro i hi
      have hs := hp (i + 1) (Nat.succ_lt_succ hi)
      rw [List.getElem_cons_succ] at hs
      rw [hs, decide_eq_decide]
      omega
    cases n with
    | zero => simpa [hx] using ih hxs
    | succ n => simpa [hx] using ih hxs

namespace State

variable (state : State)

/-- The labels of the symbol table with the words that stand beside them in memory. -/
def bindings : Bindings :=
  List.zipWith (fun label value => (label, value.toInt)) state.symbols.labels.toList
    state.data.toList

theorem getElem?_bindings (i : Nat) :
    state.bindings[i]? = (state.symbols.labels[i]?.bind fun label =>
      state.data[i]?.map fun value => (label, value.toInt)) := by
  rw [bindings, List.getElem?_zipWith, Array.getElem?_toList, Vector.getElem?_toList]
  cases state.symbols.labels[i]? <;> cases state.data[i]? <;> rfl

theorem getElem?_bindings_of_label {i : Fin dataSize} {label : String}
    (hi : state.symbols.labels[i.val]? = some label) :
    state.bindings[i.val]? = some (label, (state.data.get i).toInt) := by
  rw [getElem?_bindings, hi, Vector.getElem?_eq_getElem i.isLt]
  rfl

theorem bindings_set {i : Fin dataSize} {label : String}
    (hi : state.symbols.labels[i.val]? = some label) (value : Int32) :
    { state with data := state.data.set i value i.isLt }.bindings =
      state.bindings.assign label value.toInt := by
  apply List.ext_getElem?
  intro j
  simp only [Bindings.assign, List.getElem?_map, getElem?_bindings]
  by_cases hj : i.val = j
  · subst hj
    simp [hi]
  · cases hl : state.symbols.labels[j]? with
    | none => rfl
    | some l =>
      have hne : l ≠ label := fun he => hj (SymbolTable.position_unique hi (he ▸ hl))
      cases hd : state.data[j]? <;> simp [hj, hd, hne]

theorem entryAt_address (i : Fin dataSize) : (state.entryAt i).address.toNat = dataStart + i :=
  UInt16.toNat_ofNat_of_lt' (lt_of_lt_of_le (Nat.add_lt_add_left i.isLt dataStart) (by decide))

theorem entryAt_label? (i : Fin dataSize) :
    (state.entryAt i).label? = state.symbols.labels[i.val]? := by
  change state.symbols.label? (state.entryAt i).address = _
  rw [SymbolTable.label?, entryAt_address, if_pos (Nat.le_add_right _ _), Nat.add_sub_cancel_left]

end State

namespace Allocated

variable {program : Program} {state : State}

theorem bindings_labels (h : Allocated program state) :
    state.bindings.labels = state.symbols.labels.toList := by
  apply List.ext_getElem?
  intro i
  rw [Bindings.labels, List.getElem?_map, State.getElem?_bindings, Array.getElem?_toList]
  cases hl : state.symbols.labels[i]? with
  | none => rfl
  | some label =>
    have hi : i < dataSize := lt_of_lt_of_le (Array.getElem?_eq_some_iff.1 hl).1 h.size_le
    rw [Vector.getElem?_eq_getElem hi]
    rfl

theorem length_bindings (h : Allocated program state) :
    state.bindings.length = state.symbols.labels.size := by
  have hl := congrArg List.length h.bindings_labels
  rwa [Bindings.labels, List.length_map, Array.length_toList] at hl

theorem bindings_intern (h : Allocated program state) {label : String}
    (hl : label ∈ program.labels) :
    (state.intern label).2.bindings = state.bindings.declare label := by
  have hs := state.symbols.labels_intern label
  by_cases hm : label ∈ state.symbols.labels
  · rw [if_pos hm] at hs
    rw [Bindings.declare, if_pos (by rw [h.bindings_labels]; exact Array.mem_toList_iff.2 hm)]
    apply List.ext_getElem?
    intro i
    simp only [State.getElem?_bindings, State.intern, hs]
  · rw [if_neg hm] at hs
    rw [Bindings.declare, if_neg (by rw [h.bindings_labels]; exact mt Array.mem_toList_iff.1 hm)]
    have hlt : state.symbols.labels.size < dataSize := by
      have hb := (h.intern hl).size_le
      simp only [State.intern, hs, Array.size_push] at hb
      omega
    apply List.ext_getElem?
    intro i
    simp only [State.getElem?_bindings, State.intern, hs, Array.getElem?_push]
    rcases lt_trichotomy i state.symbols.labels.size with hi | hi | hi
    · rw [if_neg hi.ne, List.getElem?_append_left (by rwa [h.length_bindings]),
        State.getElem?_bindings]
    · -- the word that the new label takes has not been written yet
      have hz := h.unused ⟨i, hi ▸ hlt⟩ hi.ge
      subst hi
      rw [if_pos rfl, List.getElem?_append_right h.length_bindings.le, h.length_bindings,
        Nat.sub_self, Option.bind_some, Vector.getElem?_eq_getElem hlt, Option.map_some]
      change state.data[state.symbols.labels.size] = 0 at hz
      rw [hz]
      rfl
    · rw [if_neg hi.ne', List.getElem?_append_right (by rw [h.length_bindings]; omega),
        h.length_bindings, Array.getElem?_eq_none (by omega)]
      exact (List.getElem?_eq_none (by simp only [List.length_singleton]; omega)).symm

theorem lookup_of_label (h : Allocated program state) {i : Fin dataSize} {label : String}
    (hi : state.symbols.labels[i.val]? = some label) :
    state.bindings.lookup label = some (state.data.get i).toInt := by
  apply Bindings.lookup_of_mem
  · rw [h.bindings_labels]
    exact state.symbols.labels_nodup
  · exact List.mem_of_getElem? (state.getElem?_bindings_of_label hi)

theorem valueOf?_eq_lookup (h : Allocated program state) (label : String) :
    (state.valueOf? label).map Int32.toInt = state.bindings.lookup label := by
  by_cases hm : label ∈ state.symbols.labels
  · obtain ⟨i, hi⟩ := Array.mem_iff_getElem?.1 hm
    have hlt : i < dataSize := lt_of_lt_of_le (Array.getElem?_eq_some_iff.1 hi).1 h.size_le
    rw [h.lookup_of_label (i := ⟨i, hlt⟩) hi, State.valueOf?,
      state.symbols.address?_of_getElem? label hi, Option.bind_some, State.dataAt?,
      SymbolTable.dataIndex?_addressOf hlt]
    rfl
  · have hb : label ∉ state.bindings.labels := by
      rwa [h.bindings_labels, Array.mem_toList_iff]
    rw [Bindings.lookup_eq_none.2 hb, State.valueOf?,
      (state.symbols.address?_eq_none_iff label).2 hm]
    rfl

theorem valueOf?_eq_none_iff (h : Allocated program state) (label : String) :
    state.valueOf? label = none ↔ label ∉ state.symbols.labels := by
  rw [← Option.map_eq_none_iff, h.valueOf?_eq_lookup, Bindings.lookup_eq_none, h.bindings_labels,
    Array.mem_toList_iff]

theorem isListed_entryAt (h : Allocated program state) (i : Fin dataSize) :
    ((state.entryAt i).label?.isSome || (state.entryAt i).value != 0) =
      decide (i.val < state.symbols.labels.size) := by
  rw [State.entryAt_label?]
  by_cases hi : i.val < state.symbols.labels.size
  · rw [Array.getElem?_eq_getElem hi, decide_eq_true hi]
    rfl
  · have hz := h.unused i (Nat.le_of_not_lt hi)
    rw [Array.getElem?_eq_none (Nat.le_of_not_lt hi), decide_eq_false hi]
    simp [State.entryAt, hz]

/-- The words that are listed are those of the variables, in the order of their first mention. -/
theorem dataEntries_eq_mapIdx (h : Allocated program state) :
    state.dataEntries.map (fun entry => (entry.address.toNat, entry.label?, entry.value.toInt)) =
      state.bindings.mapIdx fun i v => (dataStart + i, some v.1, v.2) := by
  have ht : state.dataEntries =
      ((List.finRange dataSize).map state.entryAt).take state.symbols.labels.size := by
    refine filter_eq_take fun i hi => ?_
    simpa using h.isListed_entryAt ⟨i, by simpa using hi⟩
  rw [ht]
  apply List.ext_getElem?
  intro i
  rw [List.getElem?_map, List.getElem?_mapIdx, State.getElem?_bindings]
  by_cases hi : i < state.symbols.labels.size
  · have hlt : i < dataSize := lt_of_lt_of_le hi h.size_le
    have he : ((List.finRange dataSize).map state.entryAt)[i]? = some (state.entryAt ⟨i, hlt⟩) := by
      rw [List.getElem?_map, List.getElem?_eq_getElem (by rwa [List.length_finRange]),
        List.getElem_finRange]
      rfl
    rw [List.getElem?_take_of_lt hi, he, Option.map_some, State.entryAt_address,
      State.entryAt_label?, Array.getElem?_eq_getElem hi, Vector.getElem?_eq_getElem hlt]
    rfl
  · rw [List.getElem?_take_eq_none (Nat.le_of_not_lt hi),
      Array.getElem?_eq_none (Nat.le_of_not_lt hi)]
    rfl

end Allocated

end Accumulator
