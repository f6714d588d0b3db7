import Accumulator.Proofs.Places

namespace Accumulator

namespace SymbolTable

/-- The table after the labels were interned one after the other. -/
def internAll (table : SymbolTable) (labels : List String) : SymbolTable :=
  labels.foldl (fun table label => (table.intern label).2) table

variable {table : SymbolTable} {label : String} {i : Nat}

theorem internAll_concat (table : SymbolTable) (labels : List String) (label : String) :
    table.internAll (labels ++ [label]) = ((table.internAll labels).intern label).2 := by
  simp only [internAll, List.foldl_append, List.foldl_cons, List.foldl_nil]

theorem labels_internAll (labels : List String) :
    (empty.internAll labels).labels.toList = labels.eraseDups := by
  induction labels using List.reverseRecOn with
  | nil => rfl
  | append_singleton labels label ih =>
    have hm : label ∈ (empty.internAll labels).labels ↔ label ∈ labels := by
      rw [← Array.mem_toList_iff, ih, List.mem_eraseDups]
    rw [internAll_concat, labels_intern, List.eraseDups_append, ← ih]
    by_cases hl : label ∈ labels
    · simp [hm, hl, List.removeAll]
    · simp [hm, hl, List.removeAll, List.eraseDups_cons]

theorem getElem?_labels_internAll (labels : List String) (i : Nat) :
    (empty.internAll labels).labels[i]? = labels.eraseDups[i]? := by
  rw [← labels_internAll, Array.getElem?_toList]

theorem intern_fst_of_getElem? (h : table.labels[i]? = some label) :
    (table.intern label).1 = addressOf i := by
  obtain ⟨j, hj, ha⟩ := table.intern_fst label
  rw [labels_intern, if_pos (Array.mem_of_getElem? h)] at hj
  rw [ha, position_unique hj h]

theorem mem_take_eraseDups_iff {labels : List String} (h : labels.eraseDups[i]? = some label)
    (n : Nat) : label ∈ labels.eraseDups.take n ↔ i < n := by
  constructor
  · intro hm
    obtain ⟨j, hj⟩ := List.mem_iff_getElem?.1 hm
    by_cases hlt : j < n
    · rw [List.getElem?_take_of_lt hlt] at hj
      rw [← getElem?_labels_internAll] at h hj
      exact position_unique hj h ▸ hlt
    · rw [List.getElem?_take_eq_none (Nat.le_of_not_lt hlt)] at hj
      cases hj
  · intro hlt
    rw [← List.getElem?_take_of_lt hlt] at h
    exact List.mem_of_getElem? h

theorem eraseDups_of_nodup {labels : List String} (h : labels.Nodup) : labels.eraseDups = labels := by
  induction labels using List.reverseRecOn with
  | nil => rfl
  | append_singleton labels label ih =>
    obtain ⟨hl, -, hd⟩ := List.nodup_append.1 h
    have hn : label ∉ labels := fun hm => hd label hm label List.mem_cons_self rfl
    simp [List.eraseDups_append, ih hl, List.removeAll, hn, List.eraseDups_cons]

/-- The place of a label is cut to 16 bits, so that its word is found from what they leave of it. -/
theorem dataIndex?_addressOf_eq (i : Nat) :
    dataIndex? (addressOf i) =
      if h : i % UInt16.size < dataSize then some ⟨i % UInt16.size, h⟩ else none := by
  have hm : i % UInt16.size < UInt16.size := Nat.mod_lt i (by decide)
  have ha : (addressOf i).toNat = min (dataStart + i % UInt16.size) (UInt16.size - 1) := by
    rw [addressOf, UInt16.toNat_ofNat_of_lt']
    simp only [UInt16.size] at *
    omega
  by_cases h : i % UInt16.size < dataSize
  · have hc : addressOf i = addressOf (i % UInt16.size) := by rw [addressOf, addressOf, Nat.mod_mod]
    rw [dif_pos h, hc, dataIndex?_addressOf h]
  · have hn : ¬ (dataStart ≤ (addressOf i).toNat ∧ (addressOf i).toNat < dataStop) := by
      simp only [dataStop, dataStart, dataSize, programSize, UInt16.size] at *
      omega
    rw [dif_neg h, dataIndex?, dif_neg hn]

theorem dataIndex?_addressOf_eq_none_iff (i : Nat) :
    dataIndex? (addressOf i) = none ↔ dataSize ≤ i % UInt16.size := by
  rw [dataIndex?_addressOf_eq]
  split <;> simp <;> omega

theorem eq_of_dataIndex?_addressOf {i j : Nat} {word : Fin dataSize} (hi : i < UInt16.size)
    (hj : j < UInt16.size) (hw : dataIndex? (addressOf i) = some word)
    (hv : dataIndex? (addressOf j) = some word) : i = j := by
  rw [dataIndex?_addressOf_eq] at hw hv
  simp only [Nat.mod_eq_of_lt hi, Nat.mod_eq_of_lt hj] at hw hv
  split at hw
  · split at hv
    · cases hw
      cases hv
      rfl
    · cases hv
  · cases hw

theorem getElem?_intern (h : table.labels[i]? = some label) (other : String) :
    (table.intern other).2.labels[i]? = some label := by
  rw [← Array.getElem?_toList] at h ⊢
  obtain ⟨added, ha⟩ := table.labels_prefix_intern other
  rw [← ha, List.getElem?_append_left (List.getElem?_eq_some_iff.1 h).1, h]

theorem address?_intern_of_ne {other : String} (hne : label ≠ other) :
    (table.intern label).2.address? other = table.address? other := by
  by_cases ho : other ∈ table.labels
  · obtain ⟨i, hi⟩ := Array.mem_iff_getElem?.1 ho
    rw [table.address?_of_getElem? other hi, address?_of_getElem? _ other (getElem?_intern hi label)]
  · have hn : other ∉ (table.intern label).2.labels := by
      rw [mem_labels_intern, not_or]
      exact ⟨ho, Ne.symm hne⟩
    rw [(table.address?_eq_none_iff other).2 ho, (address?_eq_none_iff _ other).2 hn]

end SymbolTable

namespace State

variable {state : State}

theorem dataAt?_store_of_ne {address other : Address} (value : Int32)
    (h : ∀ word, dataIndex? address = some word → dataIndex? other ≠ some word) :
    (state.store address value).dataAt? other = state.dataAt? other := by
  cases ha : dataIndex? address with
  | none => simp only [store, ha]
  | some word =>
    cases ho : dataIndex? other with
    | none => simp only [dataAt?, ho, Option.map_none]
    | some word' =>
      have hne : word.val ≠ word'.val := fun he => h word ha (ho.trans (by rw [Fin.ext he]))
      simp only [dataAt?, store, ha, ho, Option.map_some, Vector.get_eq_getElem,
        Vector.getElem_set_ne word.isLt word'.isLt hne]

theorem valueOf?_store_intern {label other : String} (hne : label ≠ other)
    (h : (state.symbols.intern label).2.labels.size ≤ UInt16.size) (value : Int32) :
    ((state.intern label).2.store (state.intern label).1 value).valueOf? other =
      state.valueOf? other := by
  have ha : (state.intern label).2.symbols.address? other = state.symbols.address? other :=
    SymbolTable.address?_intern_of_ne hne
  rw [valueOf?, valueOf?, store_symbols, ha]
  cases ho : state.symbols.address? other with
  | none => rfl
  | some address =>
    obtain ⟨i, hi, rfl⟩ := SymbolTable.address?_eq_some_iff.1 ho
    obtain ⟨j, hj, hx⟩ := state.symbols.intern_fst label
    have hi := SymbolTable.getElem?_intern hi label
    have hli := (Array.getElem?_eq_some_iff.1 hi).1
    have hlj := (Array.getElem?_eq_some_iff.1 hj).1
    apply dataAt?_store_of_ne
    intro word hw hv
    rw [intern, hx] at hw
    -- with one word the two labels would have one place, and so be one label
    have he := SymbolTable.eq_of_dataIndex?_addressOf (by omega) (by omega) hw hv
    rw [he, hi] at hj
    exact hne (Option.some.inj hj).symm

theorem valueOf?_str_of_shared {label other : String} {address : Address} {word : Fin dataSize}
    (hne : label ≠ other) (hl : (state.symbols.intern label).1 = address)
    (ho : state.symbols.address? other = some address) (hw : dataIndex? address = some word) :
    ((Instruction.str label).execute state).valueOf? other = some state.accumulator := by
  have ha : (state.intern label).2.symbols.address? other = some address :=
    (SymbolTable.address?_intern_of_ne hne).trans ho
  have hi : (state.intern label).1 = address := hl
  simp only [Instruction.execute, valueOf?, ha, hi, Option.bind_some, dataAt?, store,
    hw, Option.map_some, Vector.get_eq_getElem, Vector.getElem_set_self]
  rfl

end State

namespace SymbolTable

section

variable {labels : List String} {label : String} {i : Nat}

theorem intern_fst_internAll (h : labels.eraseDups[i]? = some label) :
    ((empty.internAll labels).intern label).1 = addressOf i :=
  intern_fst_of_getElem? ((getElem?_labels_internAll labels i).trans h)

theorem intern_fst_of_concat (h : (labels ++ [label]).eraseDups[i]? = some label) :
    ((empty.internAll labels).intern label).1 = addressOf i := by
  obtain ⟨j, hj, ha⟩ := (empty.internAll labels).intern_fst label
  rw [← getElem?_labels_internAll, internAll_concat] at h
  rw [ha, position_unique hj h]

theorem exists_place_of_mem (h : label ∈ labels) :
    ∃ i < labels.eraseDups.length, labels.eraseDups[i]? = some label ∧
      ((empty.internAll labels).intern label).1 = addressOf i := by
  obtain ⟨i, hi⟩ := List.mem_iff_getElem?.1 (List.mem_eraseDups.2 h)
  exact ⟨i, (List.getElem?_eq_some_iff.1 hi).1, hi, intern_fst_internAll hi⟩

theorem exists_late_label (h : 65536 < labels.eraseDups.length) :
    ∃ first ∈ labels, ∃ late ∈ labels, first ≠ late ∧ late ∉ labels.eraseDups.take 128 ∧
      dataIndex? ((empty.internAll labels).intern first).1 = some 0 ∧
      dataIndex? ((empty.internAll labels).intern late).1 = some 0 := by
  have h₀ : labels.eraseDups[0]? = some labels.eraseDups[0] := List.getElem?_eq_getElem (by omega)
  have h₁ : labels.eraseDups[65536]? = some labels.eraseDups[65536] := List.getElem?_eq_getElem h
  have hf : labels.eraseDups[0] ∈ labels.eraseDups.take 128 :=
    (mem_take_eraseDups_iff h₀ 128).2 (by decide)
  have hl : labels.eraseDups[65536] ∉ labels.eraseDups.take 128 :=
    mt (mem_take_eraseDups_iff h₁ 128).1 (by decide)
  refine ⟨_, List.mem_eraseDups.1 (List.mem_of_getElem? h₀), _,
    List.mem_eraseDups.1 (List.mem_of_getElem? h₁), fun he => hl (he ▸ hf), hl, ?_, ?_⟩
  · rw [intern_fst_internAll h₀]
    decide
  · rw [intern_fst_internAll h₁]
    decide

theorem internAll_unbacked_iff (labels : List String) :
    labels.eraseDups.length ≤ 65536 ↔
      ∀ label ∈ labels, label ∉ labels.eraseDups.take 128 →
        dataIndex? ((empty.internAll labels).intern label).1 = none := by
  constructor
  · intro hb label hl hn
    obtain ⟨i, hlt, hi, ha⟩ := exists_place_of_mem hl
    have hlate : 128 ≤ i := Nat.le_of_not_lt (mt (mem_take_eraseDups_iff hi 128).2 hn)
    have hm : i % UInt16.size = i := Nat.mod_eq_of_lt (lt_of_lt_of_le hlt hb)
    rw [ha, dataIndex?_addressOf_eq_none_iff, hm]
    exact hlate
  · intro h
    by_contra hlt
    obtain ⟨-, -, late, hl, -, hn, -, hw⟩ := exists_late_label (Nat.lt_of_not_le hlt)
    rw [h late hl hn] at hw
    cases hw

theorem internAll_apart_iff (labels : List String) :
    labels.eraseDups.length ≤ 65536 ↔
      ∀ label ∈ labels, ∀ other ∈ labels, label ≠ other →
        ∀ word, dataIndex? ((empty.internAll labels).intern label).1 = some word →
          dataIndex? ((empty.internAll labels).intern other).1 ≠ some word := by
  constructor
  · intro hb label hl other ho hne word hw hv
    obtain ⟨i, hlt, hi, ha⟩ := exists_place_of_mem hl
    obtain ⟨j, hlt', hj, ha'⟩ := exists_place_of_mem ho
    rw [ha] at hw
    rw [ha'] at hv
    have he := eq_of_dataIndex?_addressOf (lt_of_lt_of_le hlt hb) (lt_of_lt_of_le hlt' hb) hw hv
    rw [he, hj] at hi
    exact hne (Option.some.inj hi).symm
  · intro h
    by_contra hlt
    obtain ⟨first, hf, late, hl, hne, -, hw, hv⟩ := exists_late_label (Nat.lt_of_not_le hlt)
    exact h first hf late hl hne 0 hw hv

end

/-- The first labels have the words of data memory and the others have none, as long as 16 bits hold
the places of all of them. Past that the words are handed out again. -/
theorem internAll_backs_first_labels (labels : List String) :
    let table := empty.internAll labels
    let distinct := labels.eraseDups
    (∀ i label, (labels ++ [label]).eraseDups[i]? = some label →
      (table.intern label).2.address? label = some (table.intern label).1 ∧
        (dataIndex? (table.intern label).1).map Fin.val =
          if i % 65536 < 128 then some (i % 65536) else none) ∧
      (distinct.length ≤ 65536 ↔ ∀ label ∈ labels, label ∉ distinct.take 128 →
        dataIndex? (table.intern label).1 = none) ∧
      (distinct.length ≤ 65536 ↔ ∀ label ∈ labels, ∀ other ∈ labels, label ≠ other →
        ∀ word, dataIndex? (table.intern label).1 = some word →
          dataIndex? (table.intern other).1 ≠ some word) ∧
      ∀ (state : State) label other, label ≠ other →
        (state.symbols.intern label).2.labels.size ≤ 65536 →
        ∀ instruction ∈ [Instruction.dec label, .str label],
          (instruction.execute state).valueOf? other = state.valueOf? other := by
  intro table distinct
  refine ⟨?_, internAll_unbacked_iff labels, internAll_apart_iff labels, ?_⟩
  · intro i label hi
    have hg : (table.intern label).2.labels[i]? = some label := by
      rwa [← internAll_concat, getElem?_labels_internAll]
    rw [address?_of_getElem? _ label hg, intern_fst_of_concat hi, dataIndex?_addressOf_eq]
    refine ⟨rfl, ?_⟩
    split <;> rfl
  · intro state label other hne hs instruction hm
    have hi (value : Int32) := State.valueOf?_store_intern hne hs value
    simp only [List.mem_cons, List.not_mem_nil, or_false] at hm
    rcases hm with rfl | rfl
    · exact hi 0
    · exact hi state.accumulator

theorem intern_late_label {labels : List String} {first late : String} (hn : labels.Nodup)
    (hs : labels.length = 65536) (hf : labels[0]? = some first) (hl : late ∉ labels) :
    late ∉ (labels ++ [late]).eraseDups.take 128 ∧
      ((empty.internAll labels).intern late).1 = 128 ∧
      (empty.internAll labels).address? first = some 128 := by
  have hd : (labels ++ [late]).Nodup := List.nodup_append_comm.1 (List.nodup_cons.2 ⟨hl, hn⟩)
  have hi : (labels ++ [late]).eraseDups[65536]? = some late := by
    rw [eraseDups_of_nodup hd, ← hs, List.getElem?_concat_length]
  have hg : (empty.internAll labels).labels[0]? = some first := by
    rw [getElem?_labels_internAll, eraseDups_of_nodup hn, hf]
  exact ⟨mt (mem_take_eraseDups_iff hi 128).1 (by decide), intern_fst_of_concat hi,
    address?_of_getElem? _ first hg⟩

/-- What is stored under the label behind 65536 others is read from the first of them. -/
theorem internAll_backs_late_label :
    let labels := (List.range 65536).map fun i => "v" ++ toString i
    let table := empty.internAll labels
    let state : State := { accumulator := 1, symbols := table }
    "x" ∉ (labels ++ ["x"]).eraseDups.take 128 ∧ (table.intern "x").1 = 128 ∧
      dataIndex? (table.intern "x").1 = some 0 ∧ table.address? "v0" = some 128 ∧
      state.valueOf? "v0" = some 0 ∧
      ((Instruction.str "x").execute state).valueOf? "v0" = some 1 := by
  intro labels
  have hx : "x" ∉ labels := by
    intro hm
    obtain ⟨i, -, hi⟩ := List.mem_map.1 hm
    have hv := congrArg String.toList hi
    simp [String.toList_append] at hv
  have hn : labels.Nodup := by
    refine List.nodup_range.map fun i j he => ?_
    exact Nat.repr_injective ((String.append_right_inj "v").1 he)
  have hs : labels.length = 65536 := by rw [List.length_map, List.length_range]
  have hf : labels[0]? = some "v0" := by
    rw [List.getElem?_map, List.getElem?_range (by decide)]
    rfl
  obtain ⟨ht, hi, ha⟩ := intern_late_label hn hs hf hx
  have hw : dataIndex? 128 = some 0 := by decide
  -- the table is far too large to be computed
  generalize empty.internAll labels = table at hi ha ⊢
  intro table state
  refine ⟨ht, hi, by rw [hi, hw], ha, ?_, ?_⟩
  · rw [State.valueOf?, ha]
    rfl
  · exact State.valueOf?_str_of_shared (by decide) hi ha hw

end SymbolTable

end Accumulator
