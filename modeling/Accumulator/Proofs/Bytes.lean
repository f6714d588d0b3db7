import Accumulator.Proofs.Lines
import Accumulator.Text.Words

namespace Accumulator.Text

theorem byteLength_toList (text : String) : byteLength text.toList = text.utf8ByteSize := by
  rw [← utf8ByteSize_ofList, String.ofList_toList]

theorem length_le_byteLength (text : List Char) : text.length ≤ byteLength text := by
  induction text with
  | nil => exact Nat.le_refl 0
  | cons c text ih =>
    have hc := c.utf8Size_pos
    rw [List.length_cons, byteLength_cons]
    omega

theorem extract_middle (before text after : String) :
    (before ++ text ++ after).toByteArray.extract before.utf8ByteSize
      (before.utf8ByteSize + text.utf8ByteSize) = text.toByteArray := by
  rw [String.append_assoc, String.toByteArray_append, String.toByteArray_append,
    ← String.size_toByteArray, ← String.size_toByteArray]
  have hs := ByteArray.extract_append_size_add (a := before.toByteArray)
    (b := text.toByteArray ++ after.toByteArray) (i := 0) (j := text.toByteArray.size)
  rw [Nat.add_zero] at hs
  rw [hs, ByteArray.extract_append_eq_left rfl]

theorem extract_before (before after : String) :
    (before ++ after).toByteArray.extract 0 before.utf8ByteSize = before.toByteArray := by
  rw [String.toByteArray_append, ByteArray.extract_append_eq_left String.size_toByteArray.symm]

theorem isValid_append (before after : String) :
    (⟨before.utf8ByteSize⟩ : String.Pos.Raw).IsValid (before ++ after) :=
  String.Pos.Raw.isValid_rawEndPos.append_right after

/-- A line feed is one byte, which is no part of another character. -/
theorem count_utf8EncodeChar (c : Char) :
    (String.utf8EncodeChar c).count 10 = if c = '\n' then 1 else 0 := by
  have hb (n : Nat) : UInt8.ofNat n = 10 ↔ n % 256 = 10 := by
    rw [← UInt8.toNat_inj, UInt8.toNat_ofNat']
    rfl
  have hc : c = '\n' ↔ c.val.toNat = 10 := by
    rw [← Char.val_inj, ← UInt32.toNat_inj]
    rfl
  rw [String.utf8EncodeChar]
  split_ifs <;> simp only [List.count_cons, List.count_nil, beq_iff_eq, hb] <;> grind

def bytes (text : List Char) : List UInt8 := text.flatMap String.utf8EncodeChar

theorem toList_toByteArray (text : String) :
    text.toByteArray.data.toList = bytes text.toList := by
  rw [← String.ofList_toList (s := text), String.toByteArray_ofList, List.utf8Encode,
    String.toList_ofList, List.data_toByteArray]
  rfl

theorem count_bytes (text : List Char) : (bytes text).count 10 = text.count '\n' := by
  induction text with
  | nil => rfl
  | cons c text ih =>
    rw [bytes, List.flatMap_cons, List.count_append, ← bytes, ih, count_utf8EncodeChar,
      List.count_cons, Nat.add_comm]
    simp only [beq_iff_eq]

theorem count_toByteArray (text : String) :
    text.toByteArray.data.toList.count 10 = text.toList.count '\n' := by
  rw [toList_toByteArray, count_bytes]

theorem fromUTF8?_bytes (text : List Char) :
    String.fromUTF8? ⟨(bytes text).toArray⟩ = some (String.ofList text) := by
  have hb : ByteArray.mk (bytes text).toArray = (String.ofList text).toByteArray := by
    have ht := toList_toByteArray (String.ofList text)
    rw [String.toList_ofList] at ht
    rw [← ht, Array.toArray_toList]
  rw [hb, String.fromUTF8?, dif_pos (String.ofList text).isValidUTF8]
  rfl

theorem bytes_intercalate (lines : List (List Char)) :
    bytes (['\n'].intercalate lines) = [10].intercalate (lines.map bytes) := by
  induction lines with
  | nil => rfl
  | cons line lines ih =>
    cases lines with
    | nil => simp
    | cons next lines =>
      rw [List.map_cons] at ih
      rw [List.intercalate_cons_cons, List.map_cons, List.map_cons, List.intercalate_cons_cons,
        ← ih, bytes, List.flatMap_append, List.flatMap_append]
      rfl

/-- What stands between the line feeds of a text stands between them in its bytes. -/
theorem splitOn_bytes (text : List Char) :
    (bytes text).splitOn 10 = (text.splitOn '\n').map bytes := by
  have hn : ∀ line ∈ (text.splitOn '\n').map bytes, 10 ∉ line := by
    rw [List.forall_mem_map]
    intro line hl
    rw [← List.count_eq_zero, count_bytes, List.count_eq_zero]
    exact not_mem_of_mem_splitOn hl
  have hne : (text.splitOn '\n').map bytes ≠ [] := by
    rw [List.splitOn_eq_splitOnP, Ne, List.map_eq_nil_iff]
    exact List.splitOnP_ne_nil _ _
  have ht := bytes_intercalate (text.splitOn '\n')
  rw [List.intercalate_splitOn] at ht
  rw [ht, List.splitOn_intercalate 10 hn hne]

end Accumulator.Text
