import Accumulator.Proofs.Bytes
import Accumulator.Proofs.Session

namespace Accumulator

namespace Debugger

open Text

theorem lines_toUTF8 (text : String) : lines text.toUTF8 = text.toList.splitOn '\n' := by
  have hd (line : List Char) : decoded? (bytes line) = some line := by
    rw [decoded?, fromUTF8?_bytes, Option.map_some, String.toList_ofList]
  rw [lines, String.toUTF8_eq_toByteArray, toList_toByteArray, splitOn_bytes]
  induction text.toList.splitOn '\n' with
  | nil => rfl
  | cons line rest ih =>
    rw [List.map_cons, List.takeWhile_cons, hd, Option.isSome_some, if_pos rfl,
      List.filterMap_cons_some (hd line), ih]

section

variable {β : Type} {f : List Char → Option β} {texts : List String}

theorem filterMap_splitOn_intercalate (hf : f [] = none) :
    (("\n".intercalate texts).toList.splitOn '\n').filterMap f =
      ((texts.map String.toList).flatMap (List.splitOn '\n')).filterMap f := by
  have hs : List.splitOn '\n' = List.splitOnP (· == '\n') := by
    funext text
    exact List.splitOn_eq_splitOnP
  rw [String.toList_intercalate, hs]
  exact filterMap_splitOnP_intercalate (by decide) hf _

theorem filterMap_segments_intercalate (hf : f [] = none)
    (h : ∀ text ∈ texts, ';' ∉ text.toList) :
    (segments (";".intercalate texts)).filterMap f =
      ((texts.map String.toList).flatMap (List.splitOn '\n')).filterMap f := by
  rw [segments, String.toList_intercalate]
  refine (filterMap_splitOnP_intercalate (by decide) hf _).trans ?_
  congr 1
  refine List.flatMap_congr ?_
  rw [List.forall_mem_map]
  intro text ht
  rw [List.splitOn_eq_splitOnP]
  refine splitOnP_congr fun c hc => ?_
  have hn : c ≠ ';' := fun he => h text ht (he ▸ hc)
  simp [hn, beq_eq_decide]

end

namespace Entry

def asTyped : Entry → Entry
  | scripted text | typed text => typed text
  | endOfInput => endOfInput

/-- The entry as a line that is typed, if there is anything in it. -/
def spoken? (entry : Entry) : Option Entry := if entry.isEmpty then none else some entry.asTyped

end Entry

namespace Console

variable {console : Console}

theorem respond_asTyped (h : console.terminal = false) (entry : Entry) (machine : Machine) :
    console.respond entry.asTyped machine = console.respond entry machine := by
  cases entry with
  | scripted text =>
    have he : console.echo (.typed text) = console.echo (.scripted text) := by
      simp only [echo, h]
      rfl
    rw [Entry.asTyped, respond, respond, he]
    rfl
  | typed text | endOfInput => rfl

/-- Without a terminal, it makes no difference which entries of a session are typed, and blank ones
leave no trace. -/
theorem session_filterMap_spoken? (h : console.terminal = false) (entries : List Entry)
    (machine : Machine) :
    console.session (entries.filterMap Entry.spoken?) machine = console.session entries machine := by
  induction entries generalizing machine with
  | nil => rfl
  | cons entry entries ih =>
    cases he : entry.isEmpty with
    | true =>
      have hs : entry.spoken? = none := if_pos he
      rw [List.filterMap_cons_none hs, ih, session, respond, if_pos he, ask_eq_nil h]
      rfl
    | false =>
      have hs : entry.spoken? = some entry.asTyped := if_neg (Bool.eq_false_iff.1 he)
      rw [List.filterMap_cons_some hs, session, session, ask_eq_nil h, ask_eq_nil h,
        respond_asTyped h, ih]

/-- It makes no difference to a session without a terminal which of its lines stand in the script,
divided by semicolons, and which in the input. -/
theorem session_splits_anywhere (display : Display) (machine : Machine) (scripted typed : List String)
    (h : ∀ line ∈ scripted, ';' ∉ line.toList) :
    let console : Console := { display }
    console.session
        (Entry.list (some (";".intercalate scripted)) ("\n".intercalate typed).toUTF8) machine =
      console.session (Entry.list none ("\n".intercalate (scripted ++ typed)).toUTF8) machine := by
  intro console
  have ht : console.terminal = false := rfl
  have hs (script? : Option String) (input : String) :=
    session_filterMap_spoken? ht (Entry.list script? input.toUTF8) machine
  have hb : Entry.spoken? (.typed []) = none := rfl
  rw [← hs (some _), ← hs none]
  congr 1
  rw [Entry.filterMap_list rfl rfl, Entry.filterMap_list rfl rfl, lines_toUTF8, lines_toUTF8,
    filterMap_splitOn_intercalate hb, filterMap_splitOn_intercalate hb, Option.elim_some,
    filterMap_segments_intercalate rfl h, List.map_append, List.flatMap_append,
    List.filterMap_append]
  rfl

theorem session_splits_anywhere_between_blanks :
    (∀ line ∈ ["s", "oops", ""], ';' ∉ line.toList) ∧
      session {} (Entry.list (some "s;oops;") "\nq".toUTF8) (.withLimit 9) =
        session {} (Entry.list none "s\noops\n\n\nq".toUTF8) (.withLimit 9) := by
  have h : ∀ line ∈ ["s", "oops", ""], ';' ∉ line.toList := by decide +kernel
  have hs : ";".intercalate ["s", "oops", ""] = "s;oops;" := by decide +kernel
  have hi : "\n".intercalate ["", "q"] = "\nq" := by decide +kernel
  have ht : "\n".intercalate (["s", "oops", ""] ++ ["", "q"]) = "s\noops\n\n\nq" := by decide +kernel
  refine ⟨h, ?_⟩
  have he := session_splits_anywhere {} (.withLimit 9) ["s", "oops", ""] ["", "q"] h
  rwa [hs, hi, ht] at he

end Console

end Debugger

end Accumulator
