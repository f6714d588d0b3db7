import Accumulator.Memory
import Mathlib

namespace Accumulator.SymbolTable

variable (table : SymbolTable) (label : String)

theorem position_unique {table : SymbolTable} {label : String} {i j : Nat}
    (hi : table.labels[i]? = some label) (hj : table.labels[j]? = some label) : i = j := by
  have hp := (table.agree label i).2 hi
  rw [(table.agree label j).2 hj] at hp
  exact (Option.some.inj hp).symm

theorem labels_nodup : table.labels.toList.Nodup := by
  rw [List.nodup_iff_getElem?_ne_getElem?]
  intro i j hij hj he
  simp only [Array.length_toList, Array.getElem?_toList] at hj he
  have hs : table.labels[j]? = some table.labels[j] := Array.getElem?_eq_getElem hj
  exact hij.ne (position_unique (he.trans hs) hs)

theorem positions_eq_none_iff : table.positions[label]? = none ↔ label ∉ table.labels := by
  rw [Array.mem_iff_getElem?, not_exists, Option.eq_none_iff_forall_ne_some]
  exact forall_congr' fun i => not_congr (table.agree label i)

theorem labels_intern :
    (table.intern label).2.labels =
      if label ∈ table.labels then table.labels else table.labels.push label := by
  unfold intern
  split
  · next i hi =>
    rw [if_pos (Array.mem_iff_getElem?.2 ⟨i, (table.agree label i).1 hi⟩)]
  · next hn => rw [if_neg ((table.positions_eq_none_iff label).1 hn), push]

theorem mem_labels_intern {l : String} :
    l ∈ (table.intern label).2.labels ↔ l ∈ table.labels ∨ l = label := by
  rw [labels_intern]
  split
  · next hm => exact ⟨Or.inl, fun h => h.elim id fun he => he ▸ hm⟩
  · rw [Array.mem_push]

theorem intern_fst :
    ∃ i, (table.intern label).2.labels[i]? = some label ∧ (table.intern label).1 = addressOf i := by
  unfold intern
  split
  · next i hi => exact ⟨i, (table.agree label i).1 hi, rfl⟩
  · exact ⟨table.labels.size, by simp [push], rfl⟩

theorem address?_of_getElem? {i : Nat} (h : table.labels[i]? = some label) :
    table.address? label = some (addressOf i) := by
  rw [address?, (table.agree label i).2 h, Option.map_some]

theorem address?_eq_none_iff : table.address? label = none ↔ label ∉ table.labels := by
  rw [address?, Option.map_eq_none_iff, positions_eq_none_iff]

/-- Below the place where 16 bits end, addresses are not cut. -/
theorem toNat_addressOf {i : Nat} (h : dataStart + i < UInt16.size) :
    (addressOf i).toNat = dataStart + i := by
  have hi : i % UInt16.size = i := Nat.mod_eq_of_lt (Nat.lt_of_le_of_lt (Nat.le_add_left _ _) h)
  have hm : min (dataStart + i) (UInt16.size - 1) = dataStart + i :=
    Nat.min_eq_left (Nat.le_sub_one_of_lt h)
  rw [addressOf, hi, hm]
  exact UInt16.toNat_ofNat_of_lt' h

theorem dataIndex?_addressOf {i : Nat} (h : i < dataSize) :
    dataIndex? (addressOf i) = some ⟨i, h⟩ := by
  have hd : dataStart + i < dataStop := Nat.add_lt_add_left h dataStart
  have ha : (addressOf i).toNat = dataStart + i := toNat_addressOf (hd.trans (by decide))
  have hr : dataStart ≤ (addressOf i).toNat ∧ (addressOf i).toNat < dataStop := by
    rw [ha]
    exact ⟨Nat.le_add_right dataStart i, hd⟩
  rw [dataIndex?, dif_pos hr]
  simp only [ha, Nat.add_sub_cancel_left]

end Accumulator.SymbolTable
