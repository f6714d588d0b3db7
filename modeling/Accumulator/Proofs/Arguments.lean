import Accumulator.CommandLine.Arguments
import Mathlib

namespace Accumulator.CommandLine

/-- What can stand for a file among the arguments of a subcommand. -/
def Named (path : String) : Prop := path ≠ "" ∧ isDashed path.toList = false

instance (path : String) : Decidable (Named path) := inferInstanceAs (Decidable (_ ∧ _))

/-- Where an argument that stands for no file takes a subcommand to which all else is said. -/
def stopAt (argument : String) : Stop :=
  if argument = "--help" ∨ argument.toList.take 2 = ['-', 'h'] then .usage else .refused

def Scan.closed (scan : Scan) : List Item :=
  scan.items ++ if scan.awaiting?.isSome then [.fault] else []

namespace Switch

theorem long_ne (switch : Switch) : "--" ++ switch.long ≠ "--" := by
  cases switch <;> decide

theorem ne_usage_of_takesValue {switch : Switch} (h : switch.takesValue = true) :
    switch ≠ usage := by
  rintro rfl
  cases h

end Switch

namespace Choices

/-- There is nothing left to say with the switch, save that the usage is asked for. -/
def Said (choices : Choices) : Switch → Prop
  | .usage => True
  | .minimal => choices.minimal = true
  | .limit => choices.limit?.isSome = true
  | .script => choices.script?.isSome = true

variable {choices : Choices} {switch : Switch}

theorem add_flag_of_said (h : choices.Said switch) :
    choices.add (.flag switch) = .error (if switch = .usage then .usage else .refused) := by
  cases switch with
  | usage | limit | script => rfl
  | minimal => exact if_pos h

theorem add_option_of_said (h : choices.Said switch) (value : String) :
    choices.add (.option switch value) = .error .refused := by
  cases switch with
  | usage | minimal => rfl
  | limit =>
    obtain ⟨limit, hl⟩ := Option.isSome_iff_exists.1 h
    simp only [add, hl]
  | script => exact if_pos h

end Choices

section Scanning

variable {switches : List Switch} {argument : String}

theorem scan_last (hn : argument ≠ "--") :
    scan switches none [argument] = (scanArgument switches argument).closed := by
  simp only [scan, hn, if_false]
  rfl

theorem foldlM_add_of_error {choices : Choices} {item : Item} {stop : Stop}
    (h : choices.add item = .error stop) (items : List Item) :
    (item :: items).foldlM Choices.add choices = .error stop := by
  simp only [List.foldlM_cons, h]
  rfl

theorem foldlM_scanLong {choices : Choices} (h : Switch.usage ∈ switches)
    (hs : ∀ switch ∈ switches, choices.Said switch) (argument : List Char) :
    (scanLong switches argument).closed.foldlM Choices.add choices =
      .error (if argument = "help".toList then .usage else .refused) := by
  have hj := List.takeWhile_append_dropWhile (p := (· != '=')) (l := argument)
  simp only [scanLong]
  cases hf : switches.find? fun switch =>
      switch.long = String.ofList (argument.takeWhile (· != '=')) with
  | none =>
    have hn : argument ≠ "help".toList := by
      rintro rfl
      exact List.find?_eq_none.1 hf .usage h (by decide)
    simp only [hn, if_false]
    exact foldlM_add_of_error rfl _
  | some switch =>
    have hw := hs switch (List.mem_of_find?_eq_some hf)
    have hl : switch.long = String.ofList (argument.takeWhile (· != '=')) := by
      simpa using List.find?_some hf
    cases hd : argument.dropWhile (· != '=') with
    | nil =>
      have ha : argument = switch.long.toList := by
        rw [hd, List.append_nil] at hj
        rw [hl, String.toList_ofList, hj]
      have hu : argument = "help".toList ↔ switch = .usage := by
        rw [ha]
        cases switch <;> decide
      cases hv : switch.takesValue with
      | true =>
        simp only [hu, hv, Switch.ne_usage_of_takesValue hv, if_true, if_false]
        exact foldlM_add_of_error rfl _
      | false =>
        simp only [hu, hv, Bool.false_eq_true, if_false]
        exact foldlM_add_of_error (Choices.add_flag_of_said hw) _
    | cons c value =>
      have hn : argument ≠ "help".toList := by
        rintro rfl
        cases hd
      simp only [hn, if_false]
      split
      · exact foldlM_add_of_error (Choices.add_option_of_said hw _) _
      · exact foldlM_add_of_error rfl _

theorem foldlM_scanShort {choices : Choices} (h : Switch.usage ∈ switches)
    (hs : ∀ switch ∈ switches, choices.Said switch) (letter : Char) (letters : List Char) :
    (scanShort switches (letter :: letters)).closed.foldlM Choices.add choices =
      .error (if letter = 'h' then .usage else .refused) := by
  simp only [scanShort]
  cases hf : switches.find? fun switch => switch.short = letter with
  | none =>
    have hn : letter ≠ 'h' := by
      rintro rfl
      exact List.find?_eq_none.1 hf .usage h (by decide)
    simp only [hn, if_false]
    exact foldlM_add_of_error rfl _
  | some switch =>
    have hw := hs switch (List.mem_of_find?_eq_some hf)
    have hl : switch.short = letter := by simpa using List.find?_some hf
    have hu : letter = 'h' ↔ switch = .usage := by
      rw [← hl]
      cases switch <;> decide
    cases hv : switch.takesValue with
    | true =>
      simp only [hu, hv, Switch.ne_usage_of_takesValue hv, if_true, if_false]
      split
      · exact foldlM_add_of_error rfl _
      · exact foldlM_add_of_error (Choices.add_option_of_said hw _) _
      · exact foldlM_add_of_error (Choices.add_option_of_said hw _) _
    | false =>
      simp only [hu, hv, Bool.false_eq_true, if_false]
      exact foldlM_add_of_error (Choices.add_flag_of_said hw) _

end Scanning

section Reading

variable {subcommand : Subcommand} {choices next : Choices} {path : String}

theorem usage_mem_switches (subcommand : Subcommand) : Switch.usage ∈ subcommand.switches := by
  cases subcommand <;> decide

theorem exists_of_isDashed {argument : List Char} (h : isDashed argument = true) :
    ∃ c rest, argument = '-' :: c :: rest := by
  simp only [isDashed] at h
  split at h
  · exact ⟨_, _, rfl⟩
  · cases h

theorem scanArgument_of_not_dashed (switches : List Switch) {argument : String}
    (h : isDashed argument.toList = false) :
    scanArgument switches argument = ⟨[.word argument], none⟩ := by
  simp only [scanArgument]
  split
  · next hc => simp [hc, isDashed] at h
  · next hc => simp [hc, isDashed] at h
  · rfl

theorem scanArgument_long {switch : Switch} (h : switch ∈ subcommand.switches) :
    scanArgument subcommand.switches ("--" ++ switch.long) =
      if switch.takesValue then ⟨[], some switch⟩ else ⟨[.flag switch], none⟩ := by
  cases subcommand <;> cases switch <;> first | rfl | exact absurd h (by decide)

theorem foldlM_scan_dashed (hs : ∀ switch ∈ subcommand.switches, choices.Said switch)
    (hd : isDashed path.toList = true) (hn : path ≠ "--") :
    (scan subcommand.switches none [path]).foldlM Choices.add choices = .error (stopAt path) := by
  have hu := usage_mem_switches subcommand
  obtain ⟨c, rest, hc⟩ := exists_of_isDashed hd
  have hh : path = "--help" ↔ '-' :: c :: rest = "--help".toList := by
    rw [← hc, String.toList_inj]
  simp only [scan_last hn, stopAt, hh, hc]
  by_cases hm : c = '-'
  · subst hm
    obtain ⟨d, rest, rfl⟩ : ∃ d after, rest = d :: after := by
      apply List.exists_cons_of_ne_nil
      rintro rfl
      exact hn (String.toList_inj.1 hc)
    have ha : scanArgument subcommand.switches path = scanLong subcommand.switches (d :: rest) := by
      simp only [scanArgument, hc]
    rw [ha, foldlM_scanLong hu hs]
    simp
  · have ha : scanArgument subcommand.switches path = scanShort subcommand.switches (c :: rest) := by
      simp only [scanArgument, hc]
      split
      · next he => exact absurd (List.cons.inj (List.cons.inj he).2).1 hm
      · next he => rw [(List.cons.inj he).2]
      · next hx => exact absurd rfl (hx c rest)
    rw [ha, foldlM_scanShort hu hs]
    simp [hm]

namespace Choices

def finish (choices : Choices) (subcommand : Subcommand) (arguments : List String) :
    Except Stop Request :=
  ((scan subcommand.switches none arguments).foldlM add choices).bind fun choices =>
    choices.request subcommand

theorem finish_flag (switch : Switch) (hm : switch ∈ subcommand.switches)
    (hv : switch.takesValue = false) (ha : choices.add (.flag switch) = .ok next)
    (rest : List String) :
    choices.finish subcommand (("--" ++ switch.long) :: rest) = next.finish subcommand rest := by
  have hs : scan subcommand.switches none (("--" ++ switch.long) :: rest) =
      .flag switch :: scan subcommand.switches none rest := by
    simp only [scan, switch.long_ne, if_false, scanArgument_long hm, hv, Bool.false_eq_true,
      List.singleton_append]
  simp only [finish, hs, List.foldlM_cons, ha, bind, Except.bind]

theorem finish_option (switch : Switch) (hm : switch ∈ subcommand.switches)
    (hv : switch.takesValue = true) {value : String} (hd : isDashed value.toList = false)
    (ha : choices.add (.option switch value) = .ok next) (rest : List String) :
    choices.finish subcommand (("--" ++ switch.long) :: value :: rest) =
      next.finish subcommand rest := by
  have hs : scan subcommand.switches none (("--" ++ switch.long) :: value :: rest) =
      .option switch value :: scan subcommand.switches none rest := by
    simp only [scan, switch.long_ne, if_false, scanArgument_long hm, hv, if_true, List.nil_append, hd,
      Bool.false_eq_true]
  simp only [finish, hs, List.foldlM_cons, ha, bind, Except.bind]

theorem finish_of_named (hn : choices.path? = none) (hp : Named path) :
    choices.finish subcommand [path] = { choices with path? := some path }.request subcommand := by
  obtain ⟨he, hd⟩ := hp
  have hh : path ≠ "--" := by
    rintro rfl
    exact absurd hd (by decide)
  have ha : choices.add (.word path) = .ok { choices with path? := some path } := by
    simp [add, hn, he]
  simp only [finish, scan_last hh, scanArgument_of_not_dashed _ hd, Scan.closed, Option.isSome_none,
    Bool.false_eq_true, if_false, List.append_nil, List.foldlM_cons, ha]
  rfl

theorem finish_of_not_named (hs : ∀ switch ∈ subcommand.switches, choices.Said switch)
    (hn : choices.path? = none) (hp : ¬ Named path) :
    choices.finish subcommand [path] = .error (stopAt path) := by
  by_cases he : path = ""
  · subst he
    have ha : choices.add (.word "") = .error .refused := by simp [add]
    simp only [finish, scan_last (by decide : "" ≠ "--"),
      scanArgument_of_not_dashed _ (by decide : isDashed "".toList = false), Scan.closed,
      List.singleton_append, foldlM_add_of_error ha]
    rfl
  · by_cases hh : path = "--"
    · subst hh
      have hf : choices.finish subcommand ["--"] = choices.request subcommand := rfl
      simp only [hf, request, hn]
      rfl
    · have hd : isDashed path.toList = true := by simpa [Named, he] using hp
      simp only [finish, foldlM_scan_dashed hs hd hh]
      rfl

/-- Where all else is said, the last argument completes what is asked for if it is a path. If not, it
is the same mistake or the same question for every subcommand. -/
theorem finish_last (hs : ∀ switch ∈ subcommand.switches, choices.Said switch)
    (hn : choices.path? = none) (path : String) :
    choices.finish subcommand [path] =
      if Named path then { choices with path? := some path }.request subcommand
      else .error (stopAt path) := by
  split
  · next hp => exact finish_of_named hn hp
  · next hp => exact finish_of_not_named hs hn hp

end Choices

theorem ofRest_of_name {name : String} (h : Subcommand.ofName? name = some subcommand)
    (rest : List String) : Request.ofRest none (name :: rest) = Choices.finish {} subcommand rest := by
  have hr : (Request.ofSubcommand subcommand rest).bind Except.ok =
      Choices.finish {} subcommand rest := by
    change (Choices.finish {} subcommand rest).bind Except.ok = Choices.finish {} subcommand rest
    cases Choices.finish {} subcommand rest <;> rfl
  rw [← hr]
  simp only [Subcommand.ofName?] at h
  split at h <;> cases h <;> simp [Request.ofRest, Subcommand.ofName?] <;> rfl

end Reading

end Accumulator.CommandLine
