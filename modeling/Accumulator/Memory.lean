import Std.Data.TreeMap

namespace Accumulator

abbrev Address := UInt16

abbrev programSize : Nat := 128

abbrev dataSize : Nat := 128

abbrev dataStart : Nat := programSize

abbrev dataStop : Nat := dataStart + dataSize

/-- The word of data memory that stands at an address, if one does. -/
def dataIndex? (address : Address) : Option (Fin dataSize) :=
  if h : dataStart ≤ address.toNat ∧ address.toNat < dataStop then
    some ⟨address.toNat - dataStart, Nat.sub_lt_left_of_lt_add h.1 h.2⟩
  else none

/-- The slot of instruction memory that a program counter points to, if it does to one. -/
def slotIndex? (counter : Int32) : Option (Fin programSize) :=
  if h : 0 ≤ counter.toInt ∧ counter.toInt < programSize then
    some ⟨counter.toInt.toNat, (Int.toNat_lt h.1).2 h.2⟩
  else none

/-- Labels in the order of their first mention, each with its place in that order. -/
structure SymbolTable where
  labels : Array String := #[]
  positions : Std.TreeMap String Nat := ∅
  agree : ∀ (label : String) (i : Nat),
    positions[label]? = some i ↔ labels[i]? = some label := by simp

namespace SymbolTable

def empty : SymbolTable := {}

@[simp] theorem labels_empty : empty.labels = #[] := rfl

/-- Data memory is handed out upwards, one word a label. The place in the table is kept in 16 bits
before it is added, and the sum stays at the last address rather than wrap. -/
def addressOf (position : Nat) : Address :=
  UInt16.ofNat (min (dataStart + position % UInt16.size) (UInt16.size - 1))

def address? (table : SymbolTable) (label : String) : Option Address :=
  table.positions[label]?.map addressOf

def label? (table : SymbolTable) (address : Address) : Option String :=
  if dataStart ≤ address.toNat then table.labels[address.toNat - dataStart]? else none

def push (table : SymbolTable) (label : String) (fresh : table.positions[label]? = none) :
    SymbolTable :=
  let position := table.labels.size
  { labels := table.labels.push label
    positions := table.positions.insert label position
    agree l i := by
      rw [Std.TreeMap.getElem?_insert, Array.getElem?_push]
      by_cases hi : i = table.labels.size
      · subst hi
        by_cases hl : label = l
        · simp [position, hl]
        · simp [hl, table.agree]
      · by_cases hl : label = l
        · subst hl
          have hn : table.labels[i]? ≠ some label := fun h => by
            simp [(table.agree label i).2 h] at fresh
          simp [position, hi, hn, Ne.symm hi]
        · simp [hl, hi, table.agree] }

/-- The address of a label, and the table that holds it: a label of the table keeps its address,
another one takes the next. -/
def intern (table : SymbolTable) (label : String) : Address × SymbolTable :=
  match h : table.positions[label]? with
  | some position => (addressOf position, table)
  | none => (addressOf table.labels.size, table.push label h)

end SymbolTable

end Accumulator
