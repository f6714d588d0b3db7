import Accumulator.Proofs.Halting

namespace Accumulator

inductive Setting
  | limit
  | trace
deriving DecidableEq

namespace Operation

def setting? : Operation → Option Setting
  | setLimit _ => some .limit
  | setTrace _ => some .trace
  | load _ | step | run => none

def loads : Operation → Bool
  | load source => (Program.ofSource source).isOk
  | step | run | setLimit _ | setTrace _ => false

def fails : Operation → Bool
  | load source => !(Program.ofSource source).isOk
  | step | run | setLimit _ | setTrace _ => false

/-- The operations that set something which no later one sets. -/
def lastSettings : List Operation → List Operation
  | [] => []
  | operation :: later =>
    if operation.setting?.isSome ∧ ∀ other ∈ later, other.setting? ≠ operation.setting? then
      operation :: lastSettings later
    else lastSettings later

/-- What has to be done again to come to the same machine: the settings in force at the last load
that succeeds, that load, and what follows it save for the loads that fail. -/
def replay (operations : List Operation) : List Operation :=
  let loading := operations.rdropWhile (!·.loads)
  lastSettings loading ++ loading.getLast?.toList ++
    (operations.rtakeWhile (!·.loads)).filter (!·.fails)

section

variable {operations : List Operation} {operation : Operation}

theorem replay_of_loads (h : operation.loads = true) :
    replay (operations ++ [operation]) = lastSettings (operations ++ [operation]) ++ [operation] := by
  have hd := List.rdropWhile_concat_neg (fun o : Operation => !o.loads) operations operation
    (by simp [h])
  have ht := List.rtakeWhile_concat_neg (fun o : Operation => !o.loads) operations operation
    (by simp [h])
  simp only [replay, hd, ht, List.getLast?_concat, List.filter_nil, List.append_nil]
  rfl

theorem replay_of_not_loads (h : operation.loads = false) :
    replay (operations ++ [operation]) =
      replay operations ++ [operation].filter (!·.fails) := by
  have hd := List.rdropWhile_concat_pos (fun o : Operation => !o.loads) operations operation
    (by simp [h])
  have ht := List.rtakeWhile_concat_pos (fun o : Operation => !o.loads) operations operation
    (by simp [h])
  simp only [replay, hd, ht, List.filter_append, List.append_assoc]

end

theorem foldl_lastSettings {α : Type} (f : Machine → α) (setting : Setting)
    (keeps : ∀ machine (operation : Operation), operation.setting? ≠ some setting →
      f (operation.apply machine) = f machine)
    (sets : ∀ machine other (operation : Operation), operation.setting? = some setting →
      f (operation.apply machine) = f (operation.apply other))
    {operations : List Operation} {machine other : Machine}
    (h : f machine = f other ∨ ∃ operation ∈ operations, operation.setting? = some setting) :
    f ((lastSettings operations).foldl apply machine) = f (operations.foldl apply other) := by
  induction operations generalizing machine other with
  | nil => exact h.resolve_right (by simp)
  | cons operation later ih =>
    by_cases hs : operation.setting? = some setting
    · by_cases hl : ∃ other ∈ later, other.setting? = some setting
      · have hk : ¬ (operation.setting?.isSome ∧
            ∀ other ∈ later, other.setting? ≠ operation.setting?) := by
          obtain ⟨last, hm, he⟩ := hl
          exact fun hn => hn.2 last hm (he.trans hs.symm)
        simp only [lastSettings, if_neg hk]
        exact ih (Or.inr hl)
      · have hk : operation.setting?.isSome ∧
            ∀ other ∈ later, other.setting? ≠ operation.setting? := by
          refine ⟨by simp [hs], fun last hm he => hl ⟨last, hm, he.trans hs⟩⟩
        simp only [lastSettings, if_pos hk, List.foldl_cons]
        exact ih (Or.inl (sets machine other operation hs))
    · have hn : f machine = f other ∨ ∃ operation ∈ later, operation.setting? = some setting := by
        simpa [hs] using h
      have ho := keeps other operation hs
      simp only [lastSettings, List.foldl_cons]
      split
      · exact ih (by rwa [keeps machine operation hs, ho])
      · exact ih (by rwa [ho])

end Operation

namespace Machine

variable {machine : Machine}

theorem apply_of_fails {operation : Operation} (h : operation.fails = true) (machine : Machine) :
    operation.apply machine = machine := by
  cases operation with
  | load source =>
    cases hp : Program.ofSource source with
    | ok program => simp [Operation.fails, hp, Except.isOk, Except.toBool] at h
    | error error => simp [Operation.apply, load, hp, Except.map, Except.toOption]
  | step | run | setLimit _ | setTrace _ => simp [Operation.fails] at h

theorem run_settings :
    machine.run.2.limit = machine.limit ∧ machine.run.2.trace = machine.trace := by
  induction machine using run.induct with
  | case1 machine exit hx =>
    rw [run_of_exit? hx]
    exact ⟨rfl, rfl⟩
  | case2 machine hx ih =>
    obtain ⟨hl, ht⟩ := ih
    rw [run_of_not_stopped (exit?_eq_none_iff.1 hx)]
    exact ⟨hl.trans machine.step_limit, ht.trans step_settings.2.2⟩

theorem load_settings {start : Machine} {source : String} (h : start.load source = .ok machine) :
    machine.limit = start.limit ∧ machine.trace = start.trace := by
  obtain ⟨program, -, rfl⟩ := load_eq_ok h
  exact ⟨rfl, rfl⟩

theorem apply_settings (machine : Machine) (operation : Operation) :
    (operation.setting? ≠ some .limit → (operation.apply machine).limit = machine.limit) ∧
      (operation.setting? ≠ some .trace → (operation.apply machine).trace = machine.trace) := by
  cases operation with
  | load source =>
    cases hl : machine.load source with
    | error error => simp [Operation.apply, hl, Except.toOption]
    | ok loaded => simp [Operation.apply, hl, Except.toOption, load_settings hl]
  | step => exact ⟨fun _ => machine.step_limit, fun _ => step_settings.2.2⟩
  | run => exact ⟨fun _ => run_settings.1, fun _ => run_settings.2⟩
  | setLimit limit => exact ⟨fun h => absurd rfl h, fun _ => rfl⟩
  | setTrace trace => exact ⟨fun _ => rfl, fun h => absurd rfl h⟩

theorem after_lastSettings (limit : UInt32) (operations : List Operation) :
    (after limit (Operation.lastSettings operations)).limit = (after limit operations).limit ∧
      (after limit (Operation.lastSettings operations)).trace = (after limit operations).trace := by
  constructor
  · apply Operation.foldl_lastSettings Machine.limit .limit
    · exact fun machine operation => (machine.apply_settings operation).1
    · intro machine other operation h
      cases operation with
      | setLimit limit => rfl
      | load _ | step | run | setTrace _ => cases h
    · exact Or.inl rfl
  · apply Operation.foldl_lastSettings Machine.trace .trace
    · exact fun machine operation => (machine.apply_settings operation).2
    · intro machine other operation h
      cases operation with
      | setTrace trace => rfl
      | load _ | step | run | setLimit _ => cases h
    · exact Or.inl rfl

theorem apply_of_loads {operation : Operation} (h : operation.loads = true) {other : Machine}
    (hl : machine.limit = other.limit) (ht : machine.trace = other.trace) :
    operation.apply machine = operation.apply other := by
  cases operation with
  | load source =>
    cases hp : Program.ofSource source with
    | ok program => simp only [Operation.apply, load_of_ofSource _ hp, hl, ht]; rfl
    | error error => simp [Operation.loads, hp, Except.isOk, Except.toBool] at h
  | step | run | setLimit _ | setTrace _ => cases h

/-- The last load that succeeds needs to find the settings in force there, and nothing else of what
was done before it. -/
theorem after_eq_after_replay (limit : UInt32) (operations : List Operation) :
    after limit operations = after limit (Operation.replay operations) := by
  induction operations using List.reverseRecOn with
  | nil => rfl
  | append_singleton operations operation ih =>
    cases hl : operation.loads with
    | true =>
      -- the settings are those in force before the load, which changes none of them
      have hn : operation.setting? = none := by
        cases operation with
        | load source => rfl
        | step | run | setLimit _ | setTrace _ => cases hl
      obtain ⟨hs, ht⟩ := after_lastSettings limit (operations ++ [operation])
      obtain ⟨hk, hx⟩ := apply_settings (after limit operations) operation
      rw [after_concat] at hs ht
      rw [Operation.replay_of_loads hl, after_concat, after_concat]
      apply apply_of_loads hl
      · rw [hs, hk (by simp [hn])]
      · rw [ht, hx (by simp [hn])]
    | false =>
      rw [Operation.replay_of_not_loads hl, after_concat]
      cases hf : operation.fails with
      | true =>
        have hk : [operation].filter (!·.fails) = [] := by simp [hf]
        rw [hk, List.append_nil, apply_of_fails hf, ih]
      | false =>
        have hk : [operation].filter (!·.fails) = [operation] := by simp [hf]
        rw [hk, after_concat, ih]

example : Operation.replay [.setLimit 5, .setTrace true, .load "HLT", .run, .setLimit 7, .load "ADD",
    .step, .load "JMP", .run] = [.setTrace true, .setLimit 7, .load "ADD", .step, .run] := by
  cbv

/-- A machine comes to the same state when all that its last program does not need to find is left
out. A source text that does not load changes nothing, and one that loads leaves nothing of the
program before it. -/
theorem after_forgets_history (limit : UInt32) (operations : List Operation) :
    after limit operations = after limit (Operation.replay operations) ∧
      (∀ (machine : Machine) source error, machine.load source = .error error →
        (Operation.load source).apply machine = machine) ∧
      ∀ (start other machine : Machine) source, start.load source = .ok machine →
        start.limit = other.limit → start.trace = other.trace →
        other.load source = .ok machine ∧ machine.state = {} ∧ machine.cycles = 0 ∧
          machine.hitLimit = false ∧ machine.limit = start.limit ∧ machine.trace = start.trace := by
  refine ⟨after_eq_after_replay limit operations, ?_, ?_⟩
  · intro machine source error h
    rw [Operation.apply, h]
    rfl
  · intro start other machine source h hl ht
    obtain ⟨program, hp, rfl⟩ := load_eq_ok h
    refine ⟨?_, rfl, rfl, rfl, rfl, rfl⟩
    rw [load_of_ofSource other hp, hl, ht]

end Machine

end Accumulator
