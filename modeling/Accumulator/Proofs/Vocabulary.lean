import Accumulator.Proofs.Commands

namespace Accumulator.Debugger.Command

open Text

/-- The word is one that gives the command, whatever the case of its ASCII letters. -/
def IsCalled (command : Command) (word : String) : Prop :=
  ∃ name ∈ command.aliases, word.toList.map Char.toLower = name.toList.map Char.toLower

/-- The word is longer than one byte, and in small letters it begins the full name of the command or
begins with it. -/
def IsMeant (command : Command) (word : String) : Prop :=
  2 ≤ word.utf8ByteSize ∧
    (word.toList.map Char.toLower <+: command.name.toList ∨
      command.name.toList <+: word.toList.map Char.toLower)

instance (command : Command) (word : String) : Decidable (command.IsCalled word) :=
  inferInstanceAs (Decidable (∃ name ∈ command.aliases, _))

instance (command : Command) (word : String) : Decidable (command.IsMeant word) :=
  inferInstanceAs (Decidable (_ ∧ _))

variable {command other : Command} {word : String}

theorem toList_fold (word : String) : (fold word).toList = word.toList.map Char.toLower :=
  String.toList_ofList

theorem fold_of_mem_aliases {name : String} (h : name ∈ command.aliases) : fold name = name := by
  have hs : ∀ name ∈ command.aliases, fold name = name := by
    cases command <;> decide +kernel
  exact hs name h

theorem isCalled_iff : command.IsCalled word ↔ fold word ∈ command.aliases := by
  constructor
  · rintro ⟨name, hm, he⟩
    rw [← toList_fold, ← toList_fold, String.toList_inj, fold_of_mem_aliases hm] at he
    rwa [he]
  · intro hm
    refine ⟨fold word, hm, ?_⟩
    rw [← toList_fold (fold word), fold_of_mem_aliases hm, toList_fold]

theorem eq_of_mem_aliases {name : String} (hc : name ∈ command.aliases) (ho : name ∈ other.aliases) :
    command = other := by
  have hs : ∀ name ∈ command.aliases, name ∈ other.aliases → command = other := by
    cases command <;> cases other <;> decide +kernel
  exact hs name hc ho

theorem IsCalled.eq (hc : command.IsCalled word) (ho : other.IsCalled word) : command = other :=
  eq_of_mem_aliases (isCalled_iff.1 hc) (isCalled_iff.1 ho)

theorem eq_of_head?_name (h : command.name.toList.head? = other.name.toList.head?) :
    command = other := by
  revert h
  cases command <;> cases other <;> decide +kernel

theorem IsMeant.eq (hc : command.IsMeant word) (ho : other.IsMeant word) : command = other := by
  -- the names start with different letters, so that the first letter of the word tells them apart
  have hhead {command : Command} (h : command.IsMeant word) :
      command.name.toList.head? = (word.toList.map Char.toLower).head? := by
    have hname : command.name.toList ≠ [] := by cases command <;> decide +kernel
    have hword : word.toList.map Char.toLower ≠ [] := by
      rintro he
      rw [List.map_eq_nil_iff, String.toList_eq_nil_iff] at he
      have hs := h.1
      rw [he] at hs
      exact absurd hs (by decide)
    obtain ⟨rest, hr⟩ | ⟨rest, hr⟩ := h.2
    · rw [← hr, List.head?_append_of_ne_nil _ hword]
    · rw [← hr, List.head?_append_of_ne_nil _ hname]
  exact eq_of_head?_name ((hhead hc).trans (hhead ho).symm)

theorem mem_list (command : Command) : command ∈ list := by
  cases command <;> decide

section

variable {α : Type} {P : α → Prop} [DecidablePred P] {xs ys : List α}

theorem find?_eq_some_iff_of_unique (h : ∀ y z, P y → P z → y = z) {x : α} :
    xs.find? (fun y => P y) = some x ↔ x ∈ xs ∧ P x := by
  have hfound {y : α} (hy : xs.find? (fun y => P y) = some y) : P y := by
    simpa using List.find?_some hy
  constructor
  · exact fun hx => ⟨List.mem_of_find?_eq_some hx, hfound hx⟩
  · rintro ⟨hm, hp⟩
    have hs : (xs.find? fun y => P y).isSome = true :=
      List.find?_isSome.2 ⟨x, hm, decide_eq_true hp⟩
    obtain ⟨y, hy⟩ := Option.isSome_iff_exists.1 hs
    rw [hy, h y x (hfound hy) hp]

/-- Where only one thing can be found, it is found in any order. -/
theorem find?_perm_of_unique (h : ∀ y z, P y → P z → y = z) (hs : xs.Perm ys) :
    xs.find? (fun y => P y) = ys.find? fun y => P y := by
  apply Option.ext
  intro x
  rw [find?_eq_some_iff_of_unique h, find?_eq_some_iff_of_unique h, hs.mem_iff]

end

theorem ofWord?_eq_find? (word : String) :
    ofWord? word = list.find? fun command => command.IsCalled word := by
  simp only [ofWord?, isCalled_iff]

theorem suggestion?_eq_find? (word : String) :
    suggestion? word = list.find? fun command => command.IsMeant word := by
  rw [suggestion?]
  split
  · next hs =>
    -- a word of less than two bytes is meant for no command
    rw [eq_comm, List.find?_eq_none]
    intro command _ hm
    exact absurd (of_decide_eq_true hm).1 (by omega)
  · next hs =>
    refine congrArg (list.find? ·) (funext fun command => ?_)
    rw [Bool.eq_iff_iff, Bool.or_eq_true, List.isPrefixOf_iff_prefix, List.isPrefixOf_iff_prefix,
      decide_eq_true_eq, IsMeant, toList_fold]
    exact (and_iff_right (by omega)).symm

theorem ofWord?_eq_some_iff : ofWord? word = some command ↔ command.IsCalled word := by
  rw [ofWord?_eq_find?, find?_eq_some_iff_of_unique fun _ _ => IsCalled.eq]
  exact and_iff_right command.mem_list

theorem suggestion?_eq_some_iff : suggestion? word = some command ↔ command.IsMeant word := by
  rw [suggestion?_eq_find?, find?_eq_some_iff_of_unique fun _ _ => IsMeant.eq]
  exact and_iff_right command.mem_list

theorem ofWord?_eq_none_iff : ofWord? word = none ↔ ∀ command : Command, ¬ command.IsCalled word := by
  rw [Option.eq_none_iff_forall_ne_some]
  exact forall_congr' fun command => not_congr ofWord?_eq_some_iff

theorem ofText_cases (text : List Char) :
    (∃ word arguments command, runs text = word :: arguments ∧
      command.IsCalled (String.ofList word) ∧
      ofText text = if arguments = [] then .ok command
        else .error (.tooManyArguments command arguments.length)) ∨
    ((∀ command : Command, ¬ command.IsCalled (String.ofList ((runs text).headD []))) ∧
      ofText text = .error (.unknown (String.ofList ((runs text).headD []))
        (suggestion? (String.ofList ((runs text).headD []))))) := by
  have hw := map_text_words 0 text
  cases hr : runs text with
  | nil =>
    rw [hr, List.map_nil, List.map_eq_nil_iff] at hw
    refine Or.inr ⟨ofWord?_eq_none_iff.1 rfl, ?_⟩
    rw [ofText, hw]
    rfl
  | cons word arguments =>
    rw [hr, List.map_cons] at hw
    obtain ⟨u, us, he, hu, hs⟩ := List.map_eq_cons_iff.1 hw
    have hl : us.length = arguments.length := by simpa using congrArg List.length hs
    have hb : us.isEmpty = true ↔ arguments = [] := by
      rw [List.isEmpty_iff_length_eq_zero, hl, List.length_eq_zero_iff]
    rw [ofText, he]
    dsimp only
    rw [hu, hl]
    cases hc : ofWord? (String.ofList word) with
    | none => exact Or.inr ⟨ofWord?_eq_none_iff.1 hc, rfl⟩
    | some command =>
      refine Or.inl ⟨word, arguments, command, rfl, ofWord?_eq_some_iff.1 hc, ?_⟩
      simp only [hb]

theorem ofText_eq_ok_iff {text : List Char} : ofText text = .ok command ↔
    ∃ word, runs text = [word] ∧ command.IsCalled (String.ofList word) := by
  obtain ⟨first, arguments, found, hr, hf, he⟩ | ⟨hn, he⟩ := ofText_cases text
  · rw [hr, he]
    constructor
    · intro h
      split at h
      · next ha =>
        cases h
        exact ⟨first, by rw [ha], hf⟩
      · cases h
    · rintro ⟨word, hw, hc⟩
      obtain ⟨rfl, ha⟩ := List.cons.inj hw
      rw [if_pos ha, hf.eq hc]
  · rw [he]
    refine iff_of_false nofun ?_
    rintro ⟨word, hw, hc⟩
    rw [hw] at hn
    exact hn command hc

theorem ofText_eq_tooManyArguments_iff {text : List Char} {n : Nat} :
    ofText text = .error (.tooManyArguments command n) ↔
      ∃ word arguments, runs text = word :: arguments ∧ arguments.length = n ∧ 1 ≤ n ∧
        command.IsCalled (String.ofList word) := by
  obtain ⟨first, arguments, found, hr, hf, he⟩ | ⟨hn, he⟩ := ofText_cases text
  · rw [hr, he]
    constructor
    · intro h
      split at h
      · cases h
      · next ha =>
        cases h
        exact ⟨first, arguments, rfl, rfl, List.length_pos_iff.2 ha, hf⟩
    · rintro ⟨word, others, hw, hl, hn, hc⟩
      obtain ⟨rfl, rfl⟩ := List.cons.inj hw
      rw [if_neg (List.length_pos_iff.1 (hl ▸ hn)), hf.eq hc, hl]
  · rw [he]
    refine iff_of_false nofun ?_
    rintro ⟨word, others, hw, -, -, hc⟩
    rw [hw] at hn
    exact hn command hc

theorem ofText_eq_unknown_iff {text : List Char} {meant? : Option Command} :
    ofText text = .error (.unknown word meant?) ↔
      word.toList = (runs text).headD [] ∧ (∀ command : Command, ¬ command.IsCalled word) ∧
        ∀ command, meant? = some command ↔ command.IsMeant word := by
  have hw : word.toList = (runs text).headD [] ↔ String.ofList ((runs text).headD []) = word := by
    rw [← String.toList_inj, String.toList_ofList, eq_comm]
  rw [hw]
  obtain ⟨first, arguments, found, hr, hf, he⟩ | ⟨hn, he⟩ := ofText_cases text
  · rw [hr, he]
    refine iff_of_false (fun h => ?_) ?_
    · split at h <;> cases h
    · rintro ⟨rfl, hn, -⟩
      exact hn found hf
  · rw [he]
    constructor
    · intro h
      cases h
      exact ⟨rfl, hn, fun command => suggestion?_eq_some_iff⟩
    · rintro ⟨rfl, -, hm⟩
      have hs : suggestion? (String.ofList ((runs text).headD [])) = meant? := by
        apply Option.ext
        intro command
        rw [suggestion?_eq_some_iff, hm]
      rw [hs]

/-- A line is one command, or it is refused for what its words are. -/
theorem ofText_judges_words (text : List Char) :
    (∀ command, ofText text = .ok command ↔
      ∃ word, runs text = [word] ∧ command.IsCalled (String.ofList word)) ∧
    (∀ command n, ofText text = .error (.tooManyArguments command n) ↔
      ∃ word arguments, runs text = word :: arguments ∧ arguments.length = n ∧ 1 ≤ n ∧
        command.IsCalled (String.ofList word)) ∧
    (∀ word meant?, ofText text = .error (.unknown word meant?) ↔
      word.toList = (runs text).headD [] ∧ (∀ command : Command, ¬ command.IsCalled word) ∧
        ∀ command, meant? = some command ↔ command.IsMeant word) ∧
    ∀ word,
      (∀ command other : Command,
        command.IsCalled word → other.IsCalled word → command = other) ∧
      (∀ command other : Command,
        command.IsMeant word → other.IsMeant word → command = other) ∧
      ∀ table : List Command, table.Perm list →
        (table.find? fun command => command.IsCalled word) = ofWord? word ∧
        (table.find? fun command => command.IsMeant word) = suggestion? word := by
  refine ⟨fun _ => ofText_eq_ok_iff, fun _ _ => ofText_eq_tooManyArguments_iff,
    fun _ _ => ofText_eq_unknown_iff, fun word => ?_⟩
  refine ⟨fun _ _ => IsCalled.eq, fun _ _ => IsMeant.eq, fun table ht => ⟨?_, ?_⟩⟩
  · rw [ofWord?_eq_find?, find?_perm_of_unique (fun _ _ => IsCalled.eq) ht]
  · rw [suggestion?_eq_find?, find?_perm_of_unique (fun _ _ => IsMeant.eq) ht]

end Accumulator.Debugger.Command
