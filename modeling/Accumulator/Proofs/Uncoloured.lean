import Accumulator.Proofs.Places
import Accumulator.Proofs.Session

namespace Accumulator

open Text

/-- What is shown with colours or without is the same, and has no escape sequences. -/
structure Transcript.Uncoloured (shown : Bool → Transcript) : Prop where
  same : ∀ colour, shown colour = shown false
  plain : ∀ chunk ∈ shown false, escape ∉ chunk.text.toList

/-- The names of the variables end all escape sequences that they start. -/
def State.NamesEndEscapes (state : State) : Prop :=
  ∀ label ∈ state.symbols.labels, EndsEscapes label.toList

theorem State.NamesEndEscapes.of_prefix {state later : State} (h : later.NamesEndEscapes)
    (hp : state.symbols.labels.toList <+: later.symbols.labels.toList) :
    state.NamesEndEscapes :=
  fun label hl => h label (Array.mem_toList_iff.1 (hp.subset (Array.mem_toList_iff.2 hl)))

instance (state : State) : Decidable state.NamesEndEscapes :=
  inferInstanceAs (Decidable (∀ label ∈ state.symbols.labels, EndsEscapes label.toList))

theorem Allocated.namesEndEscapes {program : Program} {state : State} (h : Allocated program state)
    (hn : ∀ label ∈ program.labels, EndsEscapes label.toList) : state.NamesEndEscapes :=
  fun label hl => hn label (h.mentioned label hl)

namespace Transcript

theorem uncoloured_nil : Uncoloured fun _ => [] := ⟨fun _ => rfl, fun _ h => by cases h⟩

theorem Uncoloured.append {s t : Bool → Transcript} (hs : Uncoloured s) (ht : Uncoloured t) :
    Uncoloured fun colour => s colour ++ t colour where
  same colour := by rw [hs.same, ht.same]
  plain := List.forall_mem_append.2 ⟨hs.plain, ht.plain⟩

theorem uncoloured_flatMap {α : Type} {f : Bool → α → Transcript} {xs : List α}
    (h : ∀ x ∈ xs, Uncoloured fun colour => f colour x) :
    Uncoloured fun colour => xs.flatMap (f colour) where
  same colour := List.flatMap_congr fun x hx => (h x hx).same colour
  plain chunk hc := by
    obtain ⟨x, hx, hm⟩ := List.mem_flatMap.1 hc
    exact (h x hx).plain chunk hm

theorem Uncoloured.escape_not_mem_on {shown : Bool → Transcript} (h : Uncoloured shown)
    (colour : Bool) (stream : Stream) : escape ∉ ((shown colour).on stream).toList := by
  rw [h.same, on, String.toList_join, List.mem_flatMap]
  rintro ⟨text, ht, hm⟩
  obtain ⟨chunk, hc, rfl⟩ := List.mem_map.1 ht
  exact h.plain chunk (List.mem_of_mem_filter hc) hm

end Transcript

namespace Display

open Transcript

theorem print_minimal (colour : Bool) (channel : Channel) (text : String) :
    { minimal := true, colour : Display }.print channel text =
      if channel = .aside then [] else [⟨channel.stream, strip text⟩] := by
  cases channel <;> rfl

theorem uncoloured_print (channel : Channel) {text : Bool → String}
    (h : ∀ colour, visible false (text colour).toList = visible false (text false).toList) :
    Uncoloured fun colour => { minimal := true, colour : Display }.print channel (text colour) where
  same colour := by
    have hs : strip (text colour) = strip (text false) := by rw [strip, strip, h]
    rw [print_minimal, print_minimal, hs]
  plain chunk hc := by
    rw [print_minimal] at hc
    split at hc
    · cases hc
    · rw [List.mem_singleton.1 hc]
      exact escape_not_mem_strip _

theorem uncoloured_print_text (channel : Channel) (text : String) :
    Uncoloured fun colour => { minimal := true, colour : Display }.print channel text :=
  uncoloured_print channel fun _ => rfl

/-- Paint is not seen on a minimal display, but it would end what the text leaves open. -/
theorem visible_paint_append (display : Display) (style : Style) {text : String}
    (h : EndsEscapes text.toList) (after : String) :
    visible false (display.paint style text ++ after).toList =
      visible false (text ++ after).toList := by
  rw [paint]
  split
  · rw [String.toList_append, Style.paint, visible_paintWith_append, String.toList_append,
      visible_append_of_endsEscapes h]
  · rfl

theorem uncoloured_listHeading (channel : Channel) {title : String}
    (h : EndsEscapes s!"------- {title} -------".toList) :
    Uncoloured fun colour => { minimal := true, colour : Display }.listHeading channel title := by
  refine uncoloured_print channel fun colour => ?_
  rw [visible_paint_append _ _ h, visible_paint_append _ _ h]

theorem uncoloured_listInstructions (channel : Channel) (machine : Machine) :
    Uncoloured fun colour =>
      { minimal := true, colour : Display }.listInstructions channel machine :=
  (uncoloured_listHeading channel (by decide +kernel)).append
    (uncoloured_flatMap fun _ _ => uncoloured_print channel fun _ => rfl)

theorem uncoloured_listRegisters (channel : Channel) (machine : Machine) :
    Uncoloured fun colour =>
      { minimal := true, colour : Display }.listRegisters channel machine :=
  (uncoloured_listHeading channel (by decide +kernel)).append
    (uncoloured_flatMap fun _ _ => uncoloured_print_text channel _)

theorem mem_labels_of_entry {state : State} {entry : DataEntry} {label : String}
    (he : entry ∈ state.dataEntries) (hl : entry.label? = some label) :
    label ∈ state.symbols.labels := by
  obtain ⟨i, -, rfl⟩ := List.mem_map.1 (List.mem_of_mem_filter he)
  change state.symbols.label? _ = some label at hl
  rw [SymbolTable.label?] at hl
  split at hl
  · exact Array.mem_of_getElem? hl
  · cases hl

theorem endsEscapes_of_entry {state : State} (h : state.NamesEndEscapes) {entry : DataEntry}
    {label : String} (he : entry ∈ state.dataEntries) (hl : entry.label? = some label) :
    EndsEscapes label.toList :=
  h label (mem_labels_of_entry he hl)

theorem visible_dataLine (display : Display) {entry : DataEntry} {label : String}
    (hl : entry.label? = some label) (h : EndsEscapes label.toList) :
    visible false (display.dataLine entry).toList =
      visible false (toString entry.address.toNat ++ " ").toList ++
        visible false (label ++ (": " ++ (toString entry.value.toInt ++ "\n"))).toList := by
  have hn : escape ∉ (toString entry.address.toNat ++ " ").toList := by
    rw [String.toList_append, List.mem_append, not_or]
    exact ⟨not_mem_toString rfl _, by decide⟩
  simp only [dataLine, hl, String.append_assoc]
  rw [← String.append_assoc, String.toList_append,
    visible_append_of_endsEscapes (endsEscapes_of_plain hn), visible_paint_append _ _ h]

theorem uncoloured_listData (channel : Channel) {machine : Machine}
    (h : machine.state.NamesEndEscapes) :
    Uncoloured fun colour => { minimal := true, colour : Display }.listData channel machine := by
  refine (uncoloured_listHeading channel (by decide +kernel)).append
    (uncoloured_flatMap fun entry he => uncoloured_print channel fun colour => ?_)
  cases hl : entry.label? with
  | none => simp only [dataLine, hl]
  | some label =>
    have hc := endsEscapes_of_entry h he hl
    rw [visible_dataLine _ hl hc, visible_dataLine _ hl hc]

theorem uncoloured_listMachine (channel : Channel) {machine : Machine}
    (h : machine.state.NamesEndEscapes) :
    Uncoloured fun colour => { minimal := true, colour : Display }.listMachine channel machine :=
  ((uncoloured_listInstructions channel machine).append
    (uncoloured_listRegisters channel machine)).append (uncoloured_listData channel h)

theorem uncoloured_limitNotice (machine : Machine) :
    Uncoloured fun colour => { minimal := true, colour : Display }.limitNotice machine :=
  uncoloured_print_text .remark _

theorem uncoloured_exitNotice (machine : Machine) (exit : Exit) :
    Uncoloured fun colour => { minimal := true, colour : Display }.exitNotice machine exit := by
  cases exit <;> exact uncoloured_print_text .remark _

theorem uncoloured_traceNotice (entries : List Machine.TraceEntry) :
    Uncoloured fun colour => { minimal := true, colour : Display }.traceNotice entries :=
  uncoloured_flatMap fun _ _ => uncoloured_print_text .remark _

end Display

namespace Debugger

theorem Command.labels_prefix_effect (machine : Machine) (command : Command) :
    machine.state.symbols.labels.toList <+:
      (command.effect machine).state.symbols.labels.toList := by
  cases command with
  | step => exact machine.labels_prefix_step
  | all => exact machine.labels_prefix_run
  | help | print | quit => exact List.prefix_rfl

theorem Command.labels_prefix_foldl (machine : Machine) (commands : List Command) :
    machine.state.symbols.labels.toList <+:
      (commands.foldl Command.effect machine).state.symbols.labels.toList := by
  induction commands generalizing machine with
  | nil => exact List.prefix_rfl
  | cons command commands ih => exact (labels_prefix_effect machine command).trans (ih _)

namespace Console

open Transcript Display

def quiet (terminal colour : Bool) : Console := { display := { minimal := true, colour }, terminal }

variable (terminal : Bool) {machine : Machine}

theorem uncoloured_report (command : Command)
    (h : (command.effect machine).state.NamesEndEscapes) :
    Uncoloured fun colour => (quiet terminal colour).report machine command := by
  cases command with
  | help | quit => exact uncoloured_print_text .remark _
  | print => exact uncoloured_listMachine .listing h
  | step =>
    have hl : Uncoloured fun colour => if machine.step.hitLimit then
        (quiet terminal colour).display.limitNotice machine.step else [] := by
      split
      · exact uncoloured_limitNotice machine.step
      · exact uncoloured_nil
    exact ((uncoloured_traceNotice machine.stepTrace).append
      (uncoloured_listMachine .listing h)).append hl
  | all =>
    exact ((uncoloured_traceNotice machine.runTrace).append
      (uncoloured_listMachine .listing h)).append
        (uncoloured_exitNotice machine.run.2 machine.run.1)

theorem uncoloured_refuse (refusal : Refusal) :
    Uncoloured fun colour => (quiet terminal colour).refuse refusal :=
  (uncoloured_print_text .remark _).append (uncoloured_print_text .remark _)

theorem uncoloured_ask (entry : Entry) :
    Uncoloured fun colour => (quiet terminal colour).ask entry := by
  cases entry with
  | scripted text => exact uncoloured_nil
  | typed text | endOfInput =>
    cases terminal with
    | false => exact uncoloured_nil
    | true => exact uncoloured_print_text .remark _

theorem uncoloured_echo (entry : Entry) :
    Uncoloured fun colour => (quiet terminal colour).echo entry := by
  have hs : Uncoloured fun colour =>
      (quiet terminal colour).display.print .aside ("\x1b[1m" ++ promptText) ++
        (quiet terminal colour).display.print .aside (entry.shown ++ "\x1b[0m\n") :=
    (uncoloured_print_text .aside _).append (uncoloured_print_text .aside _)
  cases entry with
  | scripted text => exact hs
  | typed text | endOfInput =>
    cases terminal with
    | false => exact hs
    | true => exact uncoloured_nil

theorem respond_effect (console : Console) (entry : Entry) (machine : Machine) :
    (console.respond entry machine).machine =
        entry.heard.elim machine (Command.effect machine) ∧
      (console.respond entry machine).finished =
        entry.heard.elim false (Command.closes machine) := by
  cases hh : entry.heard with
  | none =>
    obtain ⟨hm, hf, -⟩ := console.respond_of_not_heard machine hh
    exact ⟨hm, hf⟩
  | some command =>
    rw [respond_of_heard hh]
    exact ⟨rfl, rfl⟩

theorem uncoloured_respond (entry : Entry)
    (h : (entry.heard.elim machine (Command.effect machine)).state.NamesEndEscapes) :
    Uncoloured fun colour => ((quiet terminal colour).respond entry machine).transcript := by
  cases he : entry.isEmpty with
  | true =>
    simp only [respond, he]
    exact uncoloured_nil
  | false =>
    cases hc : entry.command with
    | error refusal =>
      simp only [respond, he, hc]
      exact (uncoloured_echo terminal entry).append (uncoloured_refuse terminal refusal)
    | ok command =>
      have hh : entry.heard = some command := by
        rw [Entry.heard, he, hc]
        rfl
      rw [hh] at h
      simp only [respond, he, hc]
      exact (uncoloured_echo terminal entry).append (uncoloured_report terminal command h)

theorem session_cons (console : Console) (entry : Entry) (entries : List Entry)
    (machine : Machine) :
    let after := entry.heard.elim machine (Command.effect machine)
    let shown := console.ask entry ++ (console.respond entry machine).transcript
    console.session (entry :: entries) machine =
      if entry.heard.elim false (Command.closes machine) then (shown, after)
      else (shown ++ (console.session entries after).1, (console.session entries after).2) := by
  obtain ⟨hm, hf⟩ := console.respond_effect entry machine
  simp only [session, hm, hf]

theorem labels_prefix_session (console : Console) (entries : List Entry) (machine : Machine) :
    machine.state.symbols.labels.toList <+:
      (console.session entries machine).2.state.symbols.labels.toList := by
  rw [(console.renders_session entries machine).machine_eq]
  exact Command.labels_prefix_foldl machine _

/-- The machine that a session ends with does not depend on where the session takes place. -/
theorem session_machine_eq (console other : Console) (entries : List Entry) (machine : Machine) :
    (console.session entries machine).2 = (other.session entries machine).2 := by
  rw [(console.renders_session entries machine).machine_eq,
    (other.renders_session entries machine).machine_eq]

theorem uncoloured_session (entries : List Entry)
    (h : ((quiet terminal false).session entries machine).2.state.NamesEndEscapes) :
    Uncoloured fun colour => ((quiet terminal colour).session entries machine).1 := by
  induction entries generalizing machine with
  | nil => exact uncoloured_nil
  | cons entry entries ih =>
    have ha := uncoloured_ask terminal entry
    simp only [session_cons] at h ⊢
    cases hf : entry.heard.elim false (Command.closes machine) with
    | true =>
      simp only [hf, if_true] at h ⊢
      exact ha.append (uncoloured_respond terminal entry h)
    | false =>
      simp only [hf, Bool.false_eq_true, if_false] at h ⊢
      -- the names that this entry can show are still there at the end
      have hp := labels_prefix_session (quiet terminal false) entries
        (entry.heard.elim machine (Command.effect machine))
      exact (ha.append (uncoloured_respond terminal entry (h.of_prefix hp))).append (ih h)

end Console

end Debugger

end Accumulator
