import Accumulator.Listing
import Accumulator.Proofs.Escapes

namespace Accumulator

open Text

namespace Transcript

@[simp] theorem on_nil (stream : Stream) : on stream [] = "" := rfl

@[simp] theorem on_append (stream : Stream) (s t : Transcript) :
    on stream (s ++ t) = on stream s ++ on stream t := by
  rw [on, List.filter_append, List.map_append, String.join_append]
  rfl

def Only (stream : Stream) (transcript : Transcript) : Prop :=
  ∀ chunk ∈ transcript, chunk.stream = stream

@[simp] theorem only_nil (stream : Stream) : Only stream [] := by simp [Only]

@[simp] theorem only_append {stream : Stream} {s t : Transcript} :
    Only stream (s ++ t) ↔ Only stream s ∧ Only stream t :=
  List.forall_mem_append

theorem only_flatMap {α : Type} {stream : Stream} {f : α → Transcript}
    (h : ∀ x, Only stream (f x)) (xs : List α) : Only stream (xs.flatMap f) := by
  intro chunk hc
  obtain ⟨x, -, hx⟩ := List.mem_flatMap.1 hc
  exact h x chunk hx

theorem Only.on_eq_empty {s t : Stream} {transcript : Transcript} (h : Only s transcript)
    (hst : s ≠ t) : on t transcript = "" := by
  have hf : transcript.filter (·.stream = t) = [] := by
    rw [List.filter_eq_nil_iff]
    intro chunk hc
    rw [decide_eq_true_eq, h chunk hc]
    exact hst
  rw [on, hf]
  rfl

end Transcript

namespace Text

theorem head?_append {c : Char} {s : String} (h : s.toList.head? = some c) (t : String) :
    (s ++ t).toList.head? = some c := by
  rw [String.toList_append, List.head?_append, h]
  rfl

theorem head?_toString (n : Nat) : ∃ c, (toString n).toList.head? = some c ∧ c.isDigit = true := by
  have hn : (toString n).toList = Nat.toDigits 10 n := Nat.toList_repr
  obtain ⟨c, rest, hc⟩ := List.exists_cons_of_ne_nil (Nat.toDigits_ne_nil (b := 10) (n := n))
  refine ⟨c, by rw [hn, hc]; rfl, ?_⟩
  exact Nat.isDigit_of_mem_toDigits (by decide) (by decide) (hc ▸ List.mem_cons_self)

end Text

def Channel.stream : Channel → Stream
  | .listing => .output
  | .remark | .aside => .error

namespace Display

variable (display : Display)

@[simp] theorem only_print (channel : Channel) (text : String) :
    (display.print channel text).Only channel.stream := by
  unfold print Transcript.Only
  cases channel <;> cases display.minimal <;> simp [Channel.stream]

theorem only_listMachine (channel : Channel) (machine : Machine) :
    (display.listMachine channel machine).Only channel.stream := by
  have hi : (display.listInstructions channel machine).Only channel.stream := by
    rw [listInstructions, listHeading, Transcript.only_append]
    exact ⟨display.only_print _ _, Transcript.only_flatMap (fun _ => display.only_print _ _) _⟩
  have hr : (display.listRegisters channel machine).Only channel.stream := by
    simp only [listRegisters, listHeading, boxRow]
    split <;> simp only [Transcript.only_append, only_print, true_and, and_true]
    · exact Transcript.only_flatMap (fun _ => display.only_print _ _) _
    · exact Transcript.only_flatMap (by simp) _
  have hd : (display.listData channel machine).Only channel.stream := by
    rw [listData, listHeading, Transcript.only_append]
    exact ⟨display.only_print _ _, Transcript.only_flatMap (fun _ => display.only_print _ _) _⟩
  rw [listMachine, Transcript.only_append, Transcript.only_append]
  exact ⟨⟨hi, hr⟩, hd⟩

theorem only_traceNotice (entries : List Machine.TraceEntry) :
    (display.traceNotice entries).Only .error :=
  Transcript.only_flatMap (fun _ => display.only_print .remark _) entries

def spoken (text : String) : String :=
  if display.minimal then strip text else display.paint .blue text

theorem print_remark (text : String) :
    display.print .remark text = [⟨.error, display.spoken text⟩] := by
  unfold print spoken
  cases display.minimal <;> rfl

theorem print_aside (text : String) : display.print .aside text =
    if display.minimal then [] else [⟨.error, display.spoken text⟩] := by
  unfold print spoken
  cases display.minimal <;> rfl

theorem paint_eq_iff (style : Style) {text plain : String} (h : escape ∉ plain.toList) :
    display.paint style text = display.paint style plain ↔ text = plain := by
  rw [paint, paint]
  split
  · exact paintWith_eq_iff h
  · rfl

theorem spoken_eq_iff {text plain : String} (h : escape ∉ plain.toList) :
    display.spoken text = display.spoken plain ↔
      (if display.minimal then strip text else text) = plain := by
  rw [spoken, spoken]
  split
  · rw [strip_of_plain h]
  · exact display.paint_eq_iff _ h

/-- Remarks are told apart by their first characters. -/
theorem spoken_ne {text plain : String} {c : Char} (hp : escape ∉ plain.toList)
    (ht : text.toList.head? = some c) (hc : c ≠ escape) (hn : plain.toList.head? ≠ some c) :
    display.spoken text ≠ display.spoken plain := by
  intro he
  rw [display.spoken_eq_iff hp] at he
  split at he
  · rw [← he, strip, String.toList_ofList] at hn
    exact hn (head?_visible ht hc)
  · exact hn (he ▸ ht)

end Display

end Accumulator
