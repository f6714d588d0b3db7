namespace Accumulator.Text

/-- The code points with the Unicode property `White_Space`, as ranges that hold both their ends. -/
def blankRanges : List (Nat × Nat) :=
  [(0x09, 0x0D), (0x20, 0x20), (0x85, 0x85), (0xA0, 0xA0), (0x1680, 0x1680), (0x2000, 0x200A),
    (0x2028, 0x2029), (0x202F, 0x202F), (0x205F, 0x205F), (0x3000, 0x3000)]

def isBlank (c : Char) : Bool :=
  blankRanges.any fun range => range.1 ≤ c.toNat && c.toNat ≤ range.2

def trim (text : List Char) : List Char :=
  ((text.dropWhile isBlank).reverse.dropWhile isBlank).reverse

structure Span where
  start : Nat
  stop : Nat
deriving DecidableEq, Repr

namespace Span

def length (span : Span) : Nat := span.stop - span.start

end Span

/-- A maximal run of characters that are not blank, with the byte it starts at. -/
structure Word where
  text : String
  offset : Nat
deriving DecidableEq, Repr

namespace Word

def span (word : Word) : Span := ⟨word.offset, word.offset + word.text.utf8ByteSize⟩

end Word

def byteLength : List Char → Nat
  | [] => 0
  | c :: text => c.utf8Size + byteLength text

@[simp] theorem byteLength_nil : byteLength [] = 0 := rfl

@[simp] theorem byteLength_cons (c : Char) (text : List Char) :
    byteLength (c :: text) = c.utf8Size + byteLength text := rfl

@[simp] theorem byteLength_append (s t : List Char) :
    byteLength (s ++ t) = byteLength s + byteLength t := by
  induction s with
  | nil => simp
  | cons c s ih => simp [ih, Nat.add_assoc]

theorem utf8ByteSize_ofList (text : List Char) :
    (String.ofList text).utf8ByteSize = byteLength text := by
  induction text with
  | nil => rfl
  | cons c text ih =>
    have h : String.ofList (c :: text) = String.singleton c ++ String.ofList text := by
      apply String.toList_inj.1
      simp
    simp [h, ih, String.utf8ByteSize_append]

def words (offset : Nat) (text : List Char) : List Word :=
  let start := offset + byteLength (text.takeWhile isBlank)
  match _h : text.dropWhile isBlank with
  | [] => []
  | c :: rest =>
    let run := c :: rest.takeWhile (!isBlank ·)
    ⟨String.ofList run, start⟩ ::
      words (start + byteLength run) (rest.dropWhile (!isBlank ·))
termination_by text.length
decreasing_by
  have hle := (List.dropWhile_sublist (l := text) isBlank).length_le
  have hr := (List.dropWhile_sublist (l := rest) (!isBlank ·)).length_le
  rw [_h, List.length_cons] at hle
  omega

end Accumulator.Text
