import Accumulator.Proofs.RoundTrip
import Accumulator.Proofs.Uncoloured

namespace Accumulator

open Text

namespace Text

theorem eq_of_map_eq {α β : Type} {f : α → β} {xs ys : List α}
    (hf : ∀ x ∈ xs, ∀ y ∈ ys, f x = f y → x = y) (h : xs.map f = ys.map f) : xs = ys := by
  induction xs generalizing ys with
  | nil => exact (List.map_eq_nil_iff.1 h.symm).symm
  | cons x xs ih =>
    obtain ⟨y, ys', rfl, hy, hs⟩ := List.map_eq_cons_iff.1 h.symm
    rw [List.forall_mem_cons] at hf
    rw [hf.1 y List.mem_cons_self hy.symm,
      ih (fun x hx z hz => hf.2 x hx z (List.mem_cons_of_mem _ hz)) hs.symm]

/-- A text that is shown in one line, and as it is. -/
def IsLine (text : List Char) : Prop := '\n' ∉ text ∧ escape ∉ text

instance (text : List Char) : Decidable (IsLine text) :=
  inferInstanceAs (Decidable (_ ∧ _))

theorem isLine_append {s t : List Char} : IsLine (s ++ t) ↔ IsLine s ∧ IsLine t := by
  rw [IsLine, List.mem_append, List.mem_append, not_or, not_or, and_and_and_comm]
  rfl

theorem isLine_repr (n : Int) : IsLine n.repr.toList := by
  refine ⟨(isWord_repr n).lineFeed_not_mem, ?_⟩
  cases n with
  | ofNat n => exact not_mem_toString rfl n
  | negSucc n =>
    rw [Integer.toList_repr_negSucc, ← Nat.toList_repr, List.mem_cons, not_or]
    exact ⟨by decide, not_mem_toString rfl (n + 1)⟩

theorem isLine_mnemonic (opcode : Opcode) : IsLine opcode.mnemonic.toList := by
  cases opcode <;> decide +kernel

end Text

namespace Instruction

theorem isLine_render {instruction : Instruction}
    (h : ∀ label, instruction.label? = some label → IsLine label.toList) :
    IsLine instruction.render.toList := by
  have hm := isLine_mnemonic instruction.opcode
  unfold render
  cases ho : instruction.operand? with
  | none => exact hm
  | some operand =>
    have hs : IsLine " ".toList := by decide
    have ht : IsLine operand.text.toList := by
      cases operand with
      | symbol label => exact h label (by rw [label?, ho])
      | integer value => exact isLine_repr value.toInt
    rw [String.toList_append, String.toList_append, isLine_append, isLine_append]
    exact ⟨⟨hm, hs⟩, ht⟩

theorem render_inj {first second : Instruction}
    (hf : ∀ label, first.label? = some label → IsWord label)
    (hs : ∀ label, second.label? = some label → IsWord label)
    (h : first.render = second.render) : first = second := by
  have hd := Assembly.decode_render hf
  rw [h, Assembly.decode_render hs] at hd
  cases hd
  rfl

end Instruction

namespace Display

def headingLine (title : String) : String := s!"------- {title} -------"

def entryLine (entry : Fin programSize × Instruction) : String :=
  toString entry.1.val ++ ": " ++ entry.2.render

def registerLine (row : String × String) : String := padRight 15 row.1 ++ ": " ++ row.2

def wordLine (entry : DataEntry) : String :=
  let number := toString entry.address.toNat
  let value := toString entry.value.toInt
  match entry.label? with
  | some label => number ++ " " ++ label ++ ": " ++ value
  | none => number ++ " " ++ value

def machineLines (machine : Machine) : List String :=
  headingLine "Instruction Memory" :: (machine.program.entries.map entryLine ++
    headingLine "Registers" :: ((registerRows machine.state).map registerLine ++
      headingLine "Data Memory" :: machine.state.dataEntries.map wordLine))

def printLine (line : String) : Transcript :=
  { minimal := true : Display }.print .listing (line ++ "\n")

theorem dataLine_eq_wordLine (entry : DataEntry) :
    { minimal := true : Display }.dataLine entry = wordLine entry ++ "\n" := by
  unfold dataLine wordLine
  cases entry.label? <;> rfl

theorem listMachine_eq_flatMap (machine : Machine) :
    { minimal := true : Display }.listMachine .listing machine =
      (machineLines machine).flatMap printLine := by
  have hi : { minimal := true : Display }.listInstructions .listing machine =
      printLine (headingLine "Instruction Memory") ++
        (machine.program.entries.map entryLine).flatMap printLine := by
    rw [List.flatMap_map]
    rfl
  have hr : { minimal := true : Display }.listRegisters .listing machine =
      printLine (headingLine "Registers") ++
        ((registerRows machine.state).map registerLine).flatMap printLine := by
    rw [List.flatMap_map]
    rfl
  have hd : { minimal := true : Display }.listData .listing machine =
      printLine (headingLine "Data Memory") ++
        (machine.state.dataEntries.map wordLine).flatMap printLine := by
    simp only [listData, dataLine_eq_wordLine, List.flatMap_map]
    rfl
  rw [listMachine, hi, hr, hd]
  simp only [machineLines, List.flatMap_cons, List.flatMap_append, List.append_assoc]

theorem on_printLine {line : String} (h : IsLine line.toList) :
    Transcript.on .output (printLine line) = line ++ "\n" := by
  have he : escape ∉ (line ++ "\n").toList := by
    rw [String.toList_append, List.mem_append, not_or]
    exact ⟨h.2, by decide⟩
  have hp : printLine line = [⟨.output, strip (line ++ "\n")⟩] := rfl
  rw [hp, strip_of_plain he]
  simp [Transcript.on]

theorem toList_on_flatMap_printLine {lines : List String} (h : ∀ line ∈ lines, IsLine line.toList) :
    (Transcript.on .output (lines.flatMap printLine)).toList =
      closed '\n' (lines.map String.toList) := by
  induction lines with
  | nil => rfl
  | cons line lines ih =>
    rw [List.forall_mem_cons] at h
    rw [List.flatMap_cons, Transcript.on_append, String.toList_append, on_printLine h.1, ih h.2,
      List.map_cons, closed_cons, String.toList_append, List.append_assoc]
    rfl

/-- A name that is one word and hides nothing of what is shown behind it. -/
def IsPlainName (label : String) : Prop := IsWord label ∧ escape ∉ label.toList

theorem IsPlainName.isLine {label : String} (h : IsPlainName label) : IsLine label.toList :=
  ⟨h.1.lineFeed_not_mem, h.2⟩

theorem isLine_entryLine {entry : Fin programSize × Instruction}
    (h : ∀ label, entry.2.label? = some label → IsPlainName label) :
    IsLine (entryLine entry).toList := by
  have hn : IsLine (toString entry.1.val).toList := isLine_repr (entry.1.val : Int)
  have hr := Instruction.isLine_render fun label hl => (h label hl).isLine
  rw [entryLine, String.toList_append, String.toList_append, isLine_append, isLine_append]
  exact ⟨⟨hn, by decide⟩, hr⟩

theorem isLine_registerLine {state : State} {row : String × String}
    (h : row ∈ registerRows state) : IsLine (registerLine row).toList := by
  have hf (flag : Bool) : IsLine (flagText flag).toList := by cases flag <;> decide
  have hn : ∀ name ∈ ["Accumulator", "Data Register", "Program Counter", "Zero Bit", "Overflow Bit"],
      IsLine (padRight 15 name).toList := by decide +kernel
  have hrow : IsLine (padRight 15 row.1).toList ∧ IsLine row.2.toList := by
    simp only [registerRows, List.mem_cons, List.not_mem_nil, or_false] at h
    rcases h with rfl | rfl | rfl | rfl | rfl
    · exact ⟨hn _ (by simp), isLine_repr _⟩
    · exact ⟨hn _ (by simp), isLine_repr _⟩
    · exact ⟨hn _ (by simp), isLine_repr _⟩
    · exact ⟨hn _ (by simp), hf _⟩
    · exact ⟨hn _ (by simp), hf _⟩
  rw [registerLine, String.toList_append, String.toList_append, isLine_append, isLine_append]
  exact ⟨⟨hrow.1, by decide⟩, hrow.2⟩

theorem isLine_wordLine {entry : DataEntry}
    (h : ∀ label, entry.label? = some label → IsPlainName label) :
    IsLine (wordLine entry).toList := by
  have hn : IsLine (toString entry.address.toNat).toList := isLine_repr (entry.address.toNat : Int)
  have hv : IsLine (toString entry.value.toInt).toList := isLine_repr entry.value.toInt
  have hs : IsLine " ".toList := by decide
  have hc : IsLine ": ".toList := by decide
  unfold wordLine
  cases hl : entry.label? with
  | none => simp only [String.toList_append, isLine_append, hn, hs, hv, and_self]
  | some label =>
    have hw := (h label hl).isLine
    simp only [String.toList_append, isLine_append, hn, hs, hw, hc, hv, and_self]

theorem entryLine_inj {first second : Fin programSize × Instruction}
    (hf : ∀ label, first.2.label? = some label → IsPlainName label)
    (hs : ∀ label, second.2.label? = some label → IsPlainName label)
    (h : entryLine first = entryLine second) : first = second := by
  have ht (entry : Fin programSize × Instruction) : (entryLine entry).toList =
      (toString entry.1.val).toList ++ ':' :: ' ' :: entry.2.render.toList := by
    simp [entryLine]
  have hl := congrArg String.toList h
  rw [ht, ht] at hl
  -- a name may have colons too, but they stand behind the one that ends the number
  obtain ⟨hn, hr⟩ := append_cons_inj (not_mem_toString rfl _) (not_mem_toString rfl _) hl
  have hi := Instruction.render_inj (fun label hl => (hf label hl).1) (fun label hl => (hs label hl).1)
    (String.toList_inj.1 (List.cons.inj hr).2)
  exact Prod.ext (Fin.ext (Nat.repr_injective (String.toList_inj.1 hn))) hi

def named (label? : Option String) (value : Int) : List Char :=
  match label? with
  | some label => (label.toList ++ [':']) ++ ' ' :: value.repr.toList
  | none => value.repr.toList

theorem named_inj {first? second? : Option String} {m n : Int}
    (hf : ∀ label, first? = some label → IsWord label)
    (hs : ∀ label, second? = some label → IsWord label)
    (h : named first? m = named second? n) : first? = second? ∧ m = n := by
  have hvalue (k : Int) : ' ' ∉ k.repr.toList := fun hm =>
    absurd ((isWord_repr k).2 ' ' hm) (by decide)
  have hname {label : String} (hw : IsWord label) : ' ' ∉ label.toList ++ [':'] := by
    rw [List.mem_append, not_or]
    exact ⟨fun hm => absurd (hw.2 ' ' hm) (by decide), by decide⟩
  -- neither a name nor a value has a blank in it, so that the first blank stands between them
  have hblank (label : String) (k : Int) : ' ' ∈ named (some label) k :=
    List.mem_append_right _ List.mem_cons_self
  cases first? with
  | none =>
    cases second? with
    | none => exact ⟨rfl, Int.repr_injective (String.toList_inj.1 h)⟩
    | some other =>
      have hb := hblank other n
      rw [← h] at hb
      exact absurd hb (hvalue m)
  | some label =>
    cases second? with
    | none =>
      have hb := hblank label m
      rw [h] at hb
      exact absurd hb (hvalue n)
    | some other =>
      obtain ⟨hl, hv⟩ := append_cons_inj (hname (hf label rfl)) (hname (hs other rfl)) h
      rw [String.toList_inj.1 (List.append_cancel_right hl),
        Int.repr_injective (String.toList_inj.1 hv)]
      exact ⟨rfl, rfl⟩

theorem wordLine_inj {first second : DataEntry}
    (hf : ∀ label, first.label? = some label → IsPlainName label)
    (hs : ∀ label, second.label? = some label → IsPlainName label)
    (h : wordLine first = wordLine second) : first = second := by
  have ht (entry : DataEntry) : (wordLine entry).toList =
      (toString entry.address.toNat).toList ++ ' ' :: named entry.label? entry.value.toInt := by
    unfold wordLine named
    cases entry.label? <;> simp
  have hline := congrArg String.toList h
  rw [ht, ht] at hline
  obtain ⟨ha, hn⟩ := append_cons_inj (not_mem_toString rfl _) (not_mem_toString rfl _) hline
  obtain ⟨hl, hv⟩ := named_inj (fun label hl => (hf label hl).1) (fun label hl => (hs label hl).1) hn
  have ha := UInt16.toNat_inj.1 (Nat.repr_injective (String.toList_inj.1 ha))
  cases first
  cases second
  cases ha
  cases hl
  cases Int32.toInt_inj.1 hv
  rfl

theorem flagText_inj {first second : Bool} (h : flagText first = flagText second) :
    first = second := by
  cases first <;> cases second <;> simp_all [flagText]

theorem length_registerRows (state : State) : (registerRows state).length = 5 := rfl

theorem registerLines_inj {first second : State}
    (h : (registerRows first).map registerLine = (registerRows second).map registerLine) :
    first.accumulator = second.accumulator ∧ first.dataRegister = second.dataRegister ∧
      first.counter = second.counter ∧ first.zero = second.zero ∧
      first.overflow = second.overflow := by
  have hw {m n : Int32} (h : m.toInt.repr = n.toInt.repr) : m = n :=
    Int32.toInt_inj.1 (Int.repr_injective h)
  simp only [registerRows, registerLine, List.map_cons, List.map_nil, List.cons.injEq,
    String.append_right_inj, and_true] at h
  obtain ⟨ha, hd, hc, hz, ho⟩ := h
  exact ⟨hw ha, hw hd, hw hc, flagText_inj hz, flagText_inj ho⟩

end Display

namespace Machine

open Display

/-- All the names that a listing of the machine shows are plain. -/
structure HasPlainNames (machine : Machine) : Prop where
  inProgram : ∀ entry ∈ machine.program.entries, ∀ label,
    entry.2.label? = some label → IsPlainName label
  inData : ∀ entry ∈ machine.state.dataEntries, ∀ label,
    entry.label? = some label → IsPlainName label

theorem HasPlainNames.isLine {machine : Machine} (h : machine.HasPlainNames) :
    ∀ line ∈ machineLines machine, IsLine line.toList := by
  intro line hm
  simp only [machineLines, List.mem_cons, List.mem_append, List.mem_map] at hm
  obtain rfl | ⟨entry, he, rfl⟩ | rfl | ⟨row, hr, rfl⟩ | rfl | ⟨entry, he, rfl⟩ := hm
  · decide +kernel
  · exact isLine_entryLine (h.inProgram entry he)
  · decide +kernel
  · exact isLine_registerLine hr
  · decide +kernel
  · exact isLine_wordLine (h.inData entry he)

theorem headingLine_not_mem_entryLines (title : String) (machine : Machine) :
    headingLine title ∉ machine.program.entries.map entryLine := by
  intro hm
  obtain ⟨entry, -, he⟩ := List.mem_map.1 hm
  obtain ⟨c, hc, hd⟩ := head?_toString entry.1.val
  have hs : (entryLine entry).toList.head? = some c := head?_append (head?_append hc _) _
  have hh : (headingLine title).toList.head? = some '-' := head?_append (head?_append rfl _) _
  rw [he, hh] at hs
  cases hs
  cases hd

theorem machineLines_inj {first second : Machine} (hf : first.HasPlainNames)
    (hs : second.HasPlainNames) (h : machineLines first = machineLines second) :
    first.program.entries = second.program.entries ∧
      first.state.accumulator = second.state.accumulator ∧
      first.state.dataRegister = second.state.dataRegister ∧
      first.state.counter = second.state.counter ∧ first.state.zero = second.state.zero ∧
      first.state.overflow = second.state.overflow ∧
      first.state.dataEntries = second.state.dataEntries := by
  rw [machineLines, machineLines, List.cons.injEq] at h
  -- the first heading behind the instructions ends their lines, and of registers there are always five
  obtain ⟨hp, h⟩ := append_cons_inj (headingLine_not_mem_entryLines _ _)
    (headingLine_not_mem_entryLines _ _) h.2
  have hl : ((registerRows first.state).map registerLine).length =
      ((registerRows second.state).map registerLine).length := by
    rw [List.length_map, List.length_map, length_registerRows, length_registerRows]
  obtain ⟨hr, h⟩ := List.append_inj h hl
  have hd := (List.cons.inj h).2
  have hentries := eq_of_map_eq (fun entry he other ho =>
    entryLine_inj (hf.inProgram entry he) (hs.inProgram other ho)) hp
  have hdata := eq_of_map_eq (fun entry he other ho =>
    wordLine_inj (hf.inData entry he) (hs.inData other ho)) hd
  obtain ⟨ha, hr, hc, hz, ho⟩ := registerLines_inj hr
  exact ⟨hentries, ha, hr, hc, hz, ho, hdata⟩

theorem machineLines_congr {first second : Machine}
    (hp : first.program.entries = second.program.entries)
    (ha : first.state.accumulator = second.state.accumulator)
    (hd : first.state.dataRegister = second.state.dataRegister)
    (hc : first.state.counter = second.state.counter) (hz : first.state.zero = second.state.zero)
    (ho : first.state.overflow = second.state.overflow)
    (he : first.state.dataEntries = second.state.dataEntries) :
    machineLines first = machineLines second := by
  rw [machineLines, machineLines, registerRows, registerRows, hp, ha, hd, hc, hz, ho, he]

theorem readable_invariant : Invariant fun machine => machine.program.Readable where
  fresh _ := fun label hl => by simp [withLimit, Program.labels, Program.empty] at hl
  load _ h := by
    obtain ⟨program, hp, rfl⟩ := load_eq_ok h
    exact Program.readable_of_ofSource hp
  step h := by rwa [step_program]
  setLimit _ h := h
  setTrace _ h := h

variable {limit limit' : UInt32} {operations operations' : List Operation}

theorem hasPlainNames_after
    (h : ∀ label ∈ (after limit operations).program.labels, escape ∉ label.toList) :
    (after limit operations).HasPlainNames := by
  have hr : (after limit operations).program.Readable := readable_invariant.after limit operations
  have ha := allocated_invariant.after limit operations
  refine ⟨fun entry he label hl => ?_, fun entry he label hl => ?_⟩
  · have hm := Program.mem_labels (Program.mem_entries.1 he) hl
    exact ⟨hr label hm, h label hm⟩
  · have hm := ha.mentioned label (mem_labels_of_entry he hl)
    exact ⟨hr label hm, h label hm⟩

/-- Whatever paint there is on a minimal display, its listing is made of the lines of the machine. -/
theorem toList_on_listMachine (colour : Bool)
    (h : ∀ label ∈ (after limit operations).program.labels, escape ∉ label.toList) :
    (Transcript.on .output ({ minimal := true, colour : Display }.listMachine .listing
      (after limit operations))).toList =
      closed '\n' ((machineLines (after limit operations)).map String.toList) := by
  have hn : (after limit operations).state.NamesEndEscapes :=
    (allocated_invariant.after limit operations).namesEndEscapes fun label hl =>
      endsEscapes_of_plain (h label hl)
  have hc := (uncoloured_listMachine .listing hn).same colour
  rw [hc, listMachine_eq_flatMap, toList_on_flatMap_printLine (hasPlainNames_after h).isLine]

/-- Two machines have the same listing on a minimal display if and only if all that is listed is the
same, however their variables are named. -/
theorem listing_identifies_machine (colour : Bool)
    (hf : ∀ label ∈ (after limit operations).program.labels, escape ∉ label.toList)
    (hs : ∀ label ∈ (after limit' operations').program.labels, escape ∉ label.toList) :
    let display : Display := { minimal := true, colour }
    let first := after limit operations
    let second := after limit' operations'
    Transcript.on .output (display.listMachine .listing first) =
        Transcript.on .output (display.listMachine .listing second) ↔
      first.program.entries = second.program.entries ∧
        first.state.accumulator = second.state.accumulator ∧
        first.state.dataRegister = second.state.dataRegister ∧
        first.state.counter = second.state.counter ∧ first.state.zero = second.state.zero ∧
        first.state.overflow = second.state.overflow ∧
        first.state.dataEntries = second.state.dataEntries := by
  intro display first second
  have hpf : first.HasPlainNames := hasPlainNames_after hf
  have hps : second.HasPlainNames := hasPlainNames_after hs
  rw [← String.toList_inj, toList_on_listMachine colour hf, toList_on_listMachine colour hs]
  constructor
  · intro h
    have hl {machine : Machine} (hp : machine.HasPlainNames) :
        ∀ text ∈ (machineLines machine).map String.toList, '\n' ∉ text := by
      rintro _ ht
      obtain ⟨line, hm, rfl⟩ := List.mem_map.1 ht
      exact (hp.isLine line hm).1
    have hm := closed_inj (hl hpf) (hl hps) h
    exact machineLines_inj hpf hps (Function.Injective.list_map (fun _ _ => String.toList_inj.1) hm)
  · rintro ⟨hp, ha, hd, hc, hz, ho, he⟩
    rw [machineLines_congr hp ha hd hc hz ho he]

/-- The numeral `0` and the numeral with a colon behind it are names that are told apart, though a
colon also stands behind every name. -/
theorem listing_identifies_machine_of_numerals :
    let display : Display := { minimal := true, colour := true }
    let first := after 9 [.load "STR 0\nLDI 0", .step]
    let second := after 9 [.load "STR 0:\nLDI 0", .step]
    (∀ label ∈ first.program.labels, escape ∉ label.toList) ∧
      (∀ label ∈ second.program.labels, escape ∉ label.toList) ∧
      first.program.entries ≠ second.program.entries ∧
      Transcript.on .output (display.listMachine .listing first) ≠
        Transcript.on .output (display.listMachine .listing second) := by
  intro display first second
  have hp : Program.ofSource "STR 0\nLDI 0" = .ok (.ofList [some (.str "0"), some (.ldi 0)]) := by
    cbv
  have hq : Program.ofSource "STR 0:\nLDI 0" = .ok (.ofList [some (.str "0:"), some (.ldi 0)]) := by
    cbv
  have hfirst : first.program = .ofList [some (.str "0"), some (.ldi 0)] := by
    change (((withLimit 9).load "STR 0\nLDI 0").toOption.getD (withLimit 9)).step.program = _
    rw [step_program, load_of_ofSource _ hp]
    rfl
  have hsecond : second.program = .ofList [some (.str "0:"), some (.ldi 0)] := by
    change (((withLimit 9).load "STR 0:\nLDI 0").toOption.getD (withLimit 9)).step.program = _
    rw [step_program, load_of_ofSource _ hq]
    rfl
  have hf : ∀ label ∈ first.program.labels, escape ∉ label.toList := by
    rw [hfirst]
    decide +kernel
  have hs : ∀ label ∈ second.program.labels, escape ∉ label.toList := by
    rw [hsecond]
    decide +kernel
  have hn : first.program.entries ≠ second.program.entries := by
    rw [hfirst, hsecond]
    decide +kernel
  exact ⟨hf, hs, hn, fun he => hn ((listing_identifies_machine true hf hs).1 he).1⟩

end Machine

end Accumulator
