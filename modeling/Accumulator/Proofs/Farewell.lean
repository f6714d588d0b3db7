import Accumulator.Debugger.Session
import Accumulator.Proofs.Transcript

namespace Accumulator.Debugger.Console

open Text

def farewell (console : Console) : Chunk := ⟨.error, console.display.spoken "Good bye.\n"⟩

theorem print_farewell (console : Console) :
    console.display.print .remark "Good bye.\n" = [console.farewell] :=
  console.display.print_remark _

/-- Nothing of the machine is listed, and no leave is taken. -/
structure Idle (console : Console) (transcript : Transcript) : Prop where
  only : transcript.Only .error
  stays : console.farewell ∉ transcript

theorem Idle.append {console : Console} {s t : Transcript} (hs : console.Idle s)
    (ht : console.Idle t) : console.Idle (s ++ t) :=
  ⟨Transcript.only_append.2 ⟨hs.only, ht.only⟩,
    fun h => (List.mem_append.1 h).elim hs.stays ht.stays⟩

theorem escape_not_mem_farewell : escape ∉ "Good bye.\n".toList := by decide +kernel

variable (console : Console)

theorem idle_nil : console.Idle [] := ⟨Transcript.only_nil _, List.not_mem_nil⟩

theorem idle_print_remark {text : String}
    (h : console.display.spoken text ≠ console.display.spoken "Good bye.\n") :
    console.Idle (console.display.print .remark text) := by
  refine ⟨console.display.only_print _ _, fun hm => ?_⟩
  rw [Display.print_remark, List.mem_singleton, farewell, Chunk.mk.injEq] at hm
  exact h hm.2.symm

theorem idle_remark {text : String} {c : Char} (ht : text.toList.head? = some c)
    (hc : c ≠ escape) (hg : c ≠ 'G') : console.Idle (console.display.print .remark text) := by
  have hn : "Good bye.\n".toList.head? ≠ some c := fun he => hg (Option.some.inj he).symm
  exact console.idle_print_remark (console.display.spoken_ne escape_not_mem_farewell ht hc hn)

theorem idle_aside {text : String} (ht : escape ∈ text.toList) :
    console.Idle (console.display.print .aside text) := by
  refine ⟨console.display.only_print _ _, fun h => ?_⟩
  rw [Display.print_aside] at h
  split at h
  · -- a minimal display, which would take the escape sequences off, leaves the text out
    cases h
  · next hm =>
    rw [List.mem_singleton, farewell, Chunk.mk.injEq] at h
    have he := (console.display.spoken_eq_iff escape_not_mem_farewell).1 h.2.symm
    rw [if_neg hm] at he
    exact escape_not_mem_farewell (he ▸ ht)

theorem idle_echo (entry : Entry) : console.Idle (console.echo entry) := by
  have h : console.Idle (console.display.print .aside ("\x1b[1m" ++ promptText) ++
      console.display.print .aside (entry.shown ++ "\x1b[0m\n")) := by
    refine (console.idle_aside ?_).append (console.idle_aside ?_)
    · decide +kernel
    · rw [String.toList_append]
      exact List.mem_append_right _ (by decide +kernel)
  cases entry with
  | scripted text => exact h
  | typed text | endOfInput =>
    unfold echo
    cases console.terminal with
    | false => exact h
    | true => exact console.idle_nil

theorem idle_ask (entry : Entry) : console.Idle (console.ask entry) := by
  have h : console.Idle (console.display.print .remark ("\x1b[1m" ++ promptText ++ "\x1b[0m")) := by
    apply idle_print_remark
    rw [Ne, console.display.spoken_eq_iff escape_not_mem_farewell]
    split <;> decide +kernel
  cases entry with
  | scripted text => exact console.idle_nil
  | typed text | endOfInput =>
    unfold ask
    cases console.terminal with
    | false => exact console.idle_nil
    | true => exact h

theorem head?_message (refusal : Refusal) :
    refusal.message.toList.head? = some 'N' ∨ refusal.message.toList.head? = some 'I' := by
  cases refusal with
  | unknown word suggestion? =>
    left
    cases suggestion? <;> dsimp only [Refusal.message] <;> simp only [String.append_assoc] <;>
      exact head?_append (by decide +kernel) _
  | tooManyArguments command count =>
    right
    dsimp only [Refusal.message]
    simp only [String.append_assoc]
    exact head?_append (by decide +kernel) _

theorem idle_refuse (refusal : Refusal) : console.Idle (console.refuse refusal) := by
  refine Idle.append ?_ (console.idle_remark (c := 'T') (by decide +kernel) (by decide) (by decide))
  rcases head?_message refusal with h | h
  · exact console.idle_remark (head?_append h _) (by decide) (by decide)
  · exact console.idle_remark (head?_append h _) (by decide) (by decide)

theorem idle_traceNotice (entries : List Machine.TraceEntry) :
    console.Idle (console.display.traceNotice entries) := by
  refine ⟨console.display.only_traceNotice entries, fun h => ?_⟩
  obtain ⟨entry, -, he⟩ := List.mem_flatMap.1 h
  refine (console.idle_remark (c := '[') ?_ (by decide) (by decide)).stays he
  simp only [String.append_assoc]
  exact head?_append (by decide +kernel) _

theorem idle_limitNotice (machine : Machine) :
    console.Idle (console.display.limitNotice machine) := by
  obtain ⟨c, hc, hd⟩ := head?_toString machine.limit.toNat
  refine console.idle_remark (c := c) (head?_append hc _) ?_ ?_ <;> rintro rfl <;> cases hd

theorem idle_exitNotice (machine : Machine) (exit : Exit) :
    console.Idle (console.display.exitNotice machine exit) := by
  cases exit with
  | halted => exact console.idle_remark (c := 'H') (by decide +kernel) (by decide) (by decide)
  | limitReached => exact console.idle_limitNotice machine
  | outOfProgram =>
    refine console.idle_remark (c := 'P') ?_ (by decide) (by decide)
    simp only [String.append_assoc]
    exact head?_append (by decide +kernel) _

theorem farewell_not_mem_listMachine (machine : Machine) :
    console.farewell ∉ console.display.listMachine .listing machine := by
  intro h
  cases console.display.only_listMachine .listing machine _ h

theorem farewell_not_mem_notices {before after : Transcript} (hb : console.Idle before)
    (machine : Machine) (ha : console.Idle after) :
    console.farewell ∉ before ++ console.display.listMachine .listing machine ++ after := by
  rw [List.mem_append, List.mem_append]
  rintro ((h | h) | h)
  · exact hb.stays h
  · exact console.farewell_not_mem_listMachine machine h
  · exact ha.stays h

theorem farewell_mem_report_iff {machine : Machine} {command : Command} :
    console.farewell ∈ console.report machine command ↔ command = .quit := by
  cases command with
  | quit => simp [report, print_farewell]
  | help =>
    have hf : "\n".toList.head? = some '\n' := by decide +kernel
    have hi := console.idle_remark (head?_append (head?_append hf helpText) "\n") (by decide)
      (by decide)
    exact iff_of_false hi.stays (by decide)
  | print => exact iff_of_false (console.farewell_not_mem_listMachine machine) (by decide)
  | step =>
    have hl : console.Idle (if machine.step.hitLimit then
        console.display.limitNotice machine.step else []) := by
      split
      · exact console.idle_limitNotice _
      · exact console.idle_nil
    have ht := console.idle_traceNotice machine.stepTrace
    exact iff_of_false (console.farewell_not_mem_notices ht machine.step hl) (by decide)
  | all =>
    have hx := console.idle_exitNotice machine.run.2 machine.run.1
    have ht := console.idle_traceNotice machine.runTrace
    exact iff_of_false (console.farewell_not_mem_notices ht machine.run.2 hx) (by decide)

end Accumulator.Debugger.Console
