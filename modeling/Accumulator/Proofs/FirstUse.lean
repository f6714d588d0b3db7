import Accumulator.Proofs.Interning

namespace Accumulator.SymbolTable

/-- What is asked of a table: the address of a label, which is given out if there is none yet or is
only looked up, or the label at an address. -/
inductive Call
  | intern (label : String)
  | lookUp (label : String)
  | labelAt (address : Address)
deriving DecidableEq

inductive Answer
  | address (address? : Option Address)
  | label (label? : Option String)
deriving DecidableEq

theorem internAll_append (table : SymbolTable) (labels more : List String) :
    table.internAll (labels ++ more) = (table.internAll labels).internAll more :=
  List.foldl_append

theorem getElem?_internAll {table : SymbolTable} {label : String} {i : Nat}
    (h : table.labels[i]? = some label) (labels : List String) :
    (table.internAll labels).labels[i]? = some label := by
  induction labels using List.reverseRecOn with
  | nil => exact h
  | append_singleton labels other ih =>
    rw [internAll_concat]
    exact getElem?_intern ih other

namespace Call

def perform (table : SymbolTable) : Call → Answer × SymbolTable
  | intern label =>
    let (address, table) := table.intern label
    (.address address, table)
  | lookUp label => (.address (table.address? label), table)
  | labelAt address => (.label (table.label? address), table)

def performAll (table : SymbolTable) : List Call → List Answer × SymbolTable
  | [] => ([], table)
  | call :: calls =>
    let (answer, table) := call.perform table
    let (answers, last) := performAll table calls
    (answer :: answers, last)

def interned? : Call → Option String
  | intern label => some label
  | lookUp _ | labelAt _ => none

/-- The labels that the calls intern, once for each call. -/
def interned (calls : List Call) : List String := calls.filterMap interned?

theorem interned?_eq_some_iff {call : Call} {label : String} :
    call.interned? = some label ↔ call = intern label := by
  cases call <;> simp [interned?]

theorem mem_interned {calls : List Call} {label : String} :
    label ∈ interned calls ↔ intern label ∈ calls := by
  rw [interned, List.mem_filterMap]
  constructor
  · rintro ⟨call, hm, hc⟩
    exact interned?_eq_some_iff.1 hc ▸ hm
  · exact fun hm => ⟨intern label, hm, rfl⟩

theorem interned_append (calls more : List Call) :
    interned (calls ++ more) = interned calls ++ interned more :=
  List.filterMap_append

theorem interned_cons (call : Call) (calls : List Call) :
    interned (call :: calls) = interned [call] ++ interned calls :=
  interned_append [call] calls

theorem perform_snd (table : SymbolTable) (call : Call) :
    (call.perform table).2 = table.internAll (interned [call]) := by
  cases call <;> rfl

theorem performAll_snd (table : SymbolTable) (calls : List Call) :
    (performAll table calls).2 = table.internAll (interned calls) := by
  induction calls generalizing table with
  | nil => rfl
  | cons call calls ih =>
    rw [interned_cons, internAll_append, ← perform_snd]
    exact ih _

theorem labels_performAll (calls : List Call) :
    (performAll empty calls).2.labels.toList = (interned calls).eraseDups := by
  rw [performAll_snd, labels_internAll]

/-- A call is answered from the table that the calls before it have left. -/
theorem getElem?_performAll (table : SymbolTable) (calls : List Call) (n : Nat) :
    (performAll table calls).1[n]? =
      calls[n]?.map fun call => (call.perform (table.internAll (interned (calls.take n)))).1 := by
  induction calls generalizing table n with
  | nil => rfl
  | cons call calls ih =>
    cases n with
    | zero => rfl
    | succ n =>
      rw [List.take_succ_cons, interned_cons, internAll_append, ← perform_snd]
      exact ih _ n

variable {calls : List Call} {label : String} {n : Nat}

theorem interned_split (h : calls[n]? = some (intern label)) :
    interned calls = interned (calls.take n) ++ label :: interned (calls.drop (n + 1)) := by
  obtain ⟨hlt, hg⟩ := List.getElem?_eq_some_iff.1 h
  have hd : calls.drop n = intern label :: calls.drop (n + 1) := by
    rw [List.drop_eq_getElem_cons hlt, hg]
  calc
    interned calls = interned (calls.take n ++ calls.drop n) := by rw [List.take_append_drop]
    _ = _ := by rw [interned_append, hd]; rfl

theorem answer_intern (h : calls[n]? = some (intern label)) :
    ∃ i, (interned calls).eraseDups[i]? = some label ∧
      (performAll empty calls).1[n]? = some (.address (addressOf i)) := by
  obtain ⟨i, hi, ha⟩ := (empty.internAll (interned (calls.take n))).intern_fst label
  refine ⟨i, ?_, ?_⟩
  · rw [← getElem?_labels_internAll, interned_split h, internAll_append]
    exact getElem?_internAll hi _
  · rw [getElem?_performAll, h, Option.map_some, ← ha]
    rfl

theorem answer_lookUp (h : calls[n]? = some (lookUp label)) (hm : intern label ∈ calls.take n) :
    ∃ i, (interned calls).eraseDups[i]? = some label ∧
      (performAll empty calls).1[n]? = some (.address (addressOf i)) := by
  obtain ⟨i, hi⟩ := List.mem_iff_getElem?.1 (List.mem_eraseDups.2 (mem_interned.2 hm))
  rw [← getElem?_labels_internAll] at hi
  refine ⟨i, ?_, ?_⟩
  · rw [← getElem?_labels_internAll, ← List.take_append_drop n calls, interned_append,
      internAll_append]
    exact getElem?_internAll hi _
  · rw [getElem?_performAll, h, Option.map_some, perform, address?_of_getElem? _ label hi]

end Call

theorem toNat_addressOf_last : (addressOf 65408).toNat = 65535 := by
  decide

theorem address?_iff_label?_iff (table : SymbolTable) : table.labels.size ≤ 65408 ↔
    ∀ label address, table.address? label = some address ↔ table.label? address = some label := by
  constructor
  · intro hs label address
    exact address?_eq_some_iff_label? (Nat.add_le_add_left hs dataStart)
  · intro h
    by_contra hs
    have hl : table.labels[65408]? = some table.labels[65408] :=
      Array.getElem?_eq_getElem (by omega)
    -- the last address leads back to the label that has it by right
    have hb := (h _ _).1 (table.address?_of_getElem? _ hl)
    rw [label?, toNat_addressOf_last, if_pos (by decide)] at hb
    exact absurd (position_unique hl hb) (by decide)

namespace Call

variable {calls : List Call}

/-- Each label is answered the address of its place, at its first interning and ever after, as long
as 16 bits hold the address. -/
theorem addresses_in_order_iff (calls : List Call) :
    (interned calls).eraseDups.length ≤ 65408 ↔
      ∀ (i n : Nat) label, (interned calls).eraseDups[i]? = some label →
        calls[n]? = some (intern label) ∨
          calls[n]? = some (lookUp label) ∧ intern label ∈ calls.take n →
        ∃ address, (performAll empty calls).1[n]? = some (.address (some address)) ∧
          address.toNat = 128 + i := by
  constructor
  · intro hb i n label hi hc
    have hlt : i < 65408 := lt_of_lt_of_le (List.getElem?_eq_some_iff.1 hi).1 hb
    obtain ⟨j, hj, ha⟩ := hc.elim answer_intern fun h => answer_lookUp h.1 h.2
    rw [← getElem?_labels_internAll] at hi hj
    rw [position_unique hj hi] at ha
    exact ⟨addressOf i, ha, toNat_addressOf (Nat.add_lt_add_left hlt dataStart)⟩
  · intro h
    by_contra hb
    have hl : (interned calls).eraseDups[65408]? = some (interned calls).eraseDups[65408] :=
      List.getElem?_eq_getElem (Nat.lt_of_not_le hb)
    have hm := mem_interned.1 (List.mem_eraseDups.1 (List.mem_of_getElem? hl))
    obtain ⟨n, hn⟩ := List.mem_iff_getElem?.1 hm
    obtain ⟨address, -, ha⟩ := h 65408 n _ hl (Or.inl hn)
    exact absurd address.toNat_lt (by rw [ha]; decide)

theorem performAll_take_of_lookUp {n : Nat} {call : Call} (h : calls[n]? = some call)
    (hn : ∀ label, call ≠ intern label) :
    (performAll empty (calls.take (n + 1))).2 = (performAll empty (calls.take n)).2 := by
  have hc : interned [call] = [] := by
    rw [interned, List.filterMap_eq_nil_iff]
    intro other hm
    rw [List.mem_singleton.1 hm, Option.eq_none_iff_forall_ne_some]
    exact fun label => mt interned?_eq_some_iff.1 (hn label)
  rw [performAll_snd, performAll_snd, List.take_add_one, h, Option.toList_some, interned_append, hc,
    List.append_nil]

/-- Each label has the address of its place among the labels in the order of their first interning,
and the two ways to look up are inverse to each other, for as many labels as 16 bits hold addresses
for and for no more. -/
theorem performAll_orders_by_first_use (calls : List Call) :
    let distinct := (interned calls).eraseDups
    let answers := (performAll empty calls).1
    let table := (performAll empty calls).2
    (distinct.length ≤ 65408 ↔ ∀ (i n : Nat) label, distinct[i]? = some label →
        calls[n]? = some (intern label) ∨
          calls[n]? = some (lookUp label) ∧ intern label ∈ calls.take n →
        ∃ address, answers[n]? = some (.address (some address)) ∧ address.toNat = 128 + i) ∧
      (distinct.length ≤ 65408 ↔ ∀ label address,
        table.address? label = some address ↔ table.label? address = some label) ∧
      ∀ n call, calls[n]? = some call → (∀ label, call ≠ intern label) →
        (performAll empty (calls.take (n + 1))).2 = (performAll empty (calls.take n)).2 := by
  intro distinct answers table
  refine ⟨addresses_in_order_iff calls, ?_, fun n call => performAll_take_of_lookUp⟩
  have hs : table.labels.size = distinct.length := by
    rw [← Array.length_toList, labels_performAll]
  rw [← hs]
  exact address?_iff_label?_iff table

example : (performAll empty [.lookUp "b", .intern "a", .intern "b", .labelAt 129, .intern "a",
    .lookUp "b"]).1 = [.address none, .address (some 128), .address (some 129), .label (some "b"),
      .address (some 128), .address (some 129)] := by
  cbv

end Call

end Accumulator.SymbolTable
