import RegexAutomata.Proofs.Dfa.BreakOff

/-!
# What a run records

A run is shown in four columns: a count, the state, the text that is left and a message for each
step.  The state of a step is the one in which the characters before it end, so that the columns can
be told from the walks of the automaton.  The message of an error stands in the last step or
nowhere, and it stands there exactly if the text is rejected.
-/

namespace RegexAutomata

/-- A message is that of an error if the step leads nowhere or ends in a state that does not
accept. -/
theorem RunStep.message_eq_error_iff {step : RunStep} :
    step.message = "error" ↔
      (∃ character, step.outcome = .stuck character) ∨ step.outcome = .rejected := by
  cases houtcome : step.outcome with
  | moved character target =>
    -- The two messages differ in their first letter.
    refine iff_of_false (fun hequal => ?_) (by simp)
    rw [message, houtcome] at hequal
    have hfirst := congrArg (fun text => text.toList.head?) hequal
    simp at hfirst
  | stuck character => simp [message, houtcome]
  | accepted => simp [message, houtcome]
  | rejected => simp [message, houtcome]

namespace Run

def states (run : Run) : List Nat :=
  run.steps.map RunStep.state

def texts (run : Run) : List String :=
  run.steps.map fun step => String.ofList step.remaining

def messages (run : Run) : List String :=
  run.steps.map RunStep.message

/-- Nothing but acceptance is reported as a success. -/
theorem verdict_eq_success_iff {run : Run} :
    run.verdict = "Success!" ↔ run.accepted = true := by
  unfold verdict accepted
  cases run.steps.getLast? with
  | none => simp
  | some step => cases houtcome : step.outcome <;> simp [houtcome, ← String.toList_inj]

/-- All steps but the last lead on to another state, and the last one does not. -/
inductive Orderly : List RunStep → Prop where
  | last (step : RunStep)
      (hended : ∀ character target, step.outcome ≠ .moved character target) : Orderly [step]
  | moved {step : RunStep} {steps : List RunStep} {character : Char} {target : Nat}
      (hmoved : step.outcome = .moved character target) (hsteps : Orderly steps) :
      Orderly (step :: steps)

namespace Orderly

variable {steps : List RunStep}

theorem ne_nil (horderly : Orderly steps) : steps ≠ [] := by
  cases horderly <;> exact List.cons_ne_nil _ _

theorem message_ne_error {step : RunStep} {character : Char} {target : Nat}
    (hmoved : step.outcome = .moved character target) : step.message ≠ "error" := by
  simp [RunStep.message_eq_error_iff, hmoved]

/-- There is an error among the messages exactly if the run does not accept. -/
theorem error_mem_iff (horderly : Orderly steps) :
    "error" ∈ messages ⟨steps⟩ ↔ accepted ⟨steps⟩ = false := by
  induction horderly with
  | last step hended =>
    rw [messages, List.map_singleton, List.mem_singleton, eq_comm, RunStep.message_eq_error_iff]
    cases houtcome : step.outcome with
    | moved character target => exact absurd houtcome (hended character target)
    | stuck character => simp [accepted, houtcome]
    | accepted => simp [accepted, houtcome]
    | rejected => simp [accepted, houtcome]
  | @moved step steps character target hmoved hsteps ih =>
    rw [accepted_cons step hsteps.ne_nil, ← ih, messages, List.map_cons, List.mem_cons]
    exact or_iff_right (message_ne_error hmoved).symm

/-- Only the last message can be that of an error. -/
theorem error_last (horderly : Orderly steps) {place : Nat}
    (herror : (messages ⟨steps⟩)[place]? = some "error") : place + 1 = steps.length := by
  induction horderly generalizing place with
  | last step hended =>
    obtain ⟨hplace, -⟩ := List.getElem?_eq_some_iff.1 herror
    exact congrArg (· + 1) (Nat.lt_one_iff.1 hplace)
  | moved hmoved hsteps ih =>
    cases place with
    | zero => exact absurd (Option.some.inj herror) (message_ne_error hmoved)
    | succ place => exact congrArg (· + 1) (ih herror)

end Orderly

end Run

namespace Dfa

variable {dfa : Dfa} {index reached : Nat} {characters : List Char} {steps : List RunStep}

section Failure

variable {failure : Failure}

theorem state?_eq_error (hstate : dfa.state? index = .error failure) : failure = .noSuchState := by
  unfold state? at hstate
  split at hstate <;> cases hstate
  rfl

theorem next_eq_error {symbol : String} (hnext : dfa.next index symbol = .error failure) :
    failure = .noSuchState := by
  obtain hstate | ⟨_, -, hnever⟩ := Traversal.bind_eq_error_iff.1 hnext
  · exact state?_eq_error hstate
  · cases hnever

/-- Reading can fail at a state that does not exist, and in no other way. -/
theorem acceptsFrom_eq_error (haccepts : dfa.acceptsFrom index characters = .error failure) :
    failure = .noSuchState := by
  induction characters generalizing index with
  | nil =>
    obtain hstate | ⟨_, -, hnever⟩ := Traversal.bind_eq_error_iff.1 haccepts
    · exact state?_eq_error hstate
    · cases hnever
  | cons character rest ih =>
    obtain hnext | ⟨target, -, hrest⟩ := Traversal.bind_eq_error_iff.1 haccepts
    · exact next_eq_error hnext
    · cases target with
      | none => cases hrest
      | some target => exact ih hrest

end Failure

/-- The step at a place is taken in the state in which the characters before it end. -/
theorem getElem?_stepsFrom (hsteps : dfa.stepsFrom index characters = .ok steps) {place : Nat}
    {step : RunStep} (hstep : steps[place]? = some step) :
    dfa.walkFrom index ((characters.take place).map String.singleton) = .ok (some step.state) ∧
      step.remaining = characters.drop place := by
  induction characters generalizing index steps place with
  | nil =>
    obtain ⟨state, -, hresult⟩ := Traversal.bind_eq_ok_iff.1 hsteps
    cases hresult
    rw [List.getElem?_singleton, Option.ite_none_right_eq_some] at hstep
    obtain ⟨rfl, hfirst⟩ := hstep
    cases hfirst
    exact ⟨rfl, rfl⟩
  | cons character rest ih =>
    obtain ⟨target, hnext, hresult⟩ := Traversal.bind_eq_ok_iff.1 hsteps
    cases target with
    | none =>
      cases hresult
      rw [List.getElem?_singleton, Option.ite_none_right_eq_some] at hstep
      obtain ⟨rfl, hfirst⟩ := hstep
      cases hfirst
      exact ⟨rfl, rfl⟩
    | some target =>
      obtain ⟨others, hothers, hlast⟩ := Traversal.bind_eq_ok_iff.1 hresult
      cases hlast
      cases place with
      | zero =>
        cases hstep
        exact ⟨rfl, rfl⟩
      | succ place =>
        obtain ⟨hwalk, hremaining⟩ := ih hothers hstep
        rw [walkFrom_of_next hnext]
        exact ⟨hwalk, hremaining⟩

theorem orderly_stepsFrom (hsteps : dfa.stepsFrom index characters = .ok steps) :
    Run.Orderly steps := by
  induction characters generalizing index steps with
  | nil =>
    obtain ⟨state, -, hresult⟩ := Traversal.bind_eq_ok_iff.1 hsteps
    cases hresult
    refine .last _ fun character target => ?_
    cases state.accepting <;> simp
  | cons character rest ih =>
    obtain ⟨target, hnext, hresult⟩ := Traversal.bind_eq_ok_iff.1 hsteps
    cases target with
    | none =>
      cases hresult
      exact .last _ fun _ _ => Outcome.noConfusion
    | some target =>
      obtain ⟨others, hothers, hlast⟩ := Traversal.bind_eq_ok_iff.1 hresult
      cases hlast
      exact .moved rfl (ih hothers)

/-- There is no transition for the character at this index, though there is one for each character
before it. -/
def MissesAt (dfa : Dfa) (text : String) (index : Nat) : Prop :=
  ∃ reached character, dfa.walk ((symbolsOf text).take index) = .ok (some reached) ∧
    text.toList[index]? = some character ∧
    dfa.next reached (String.singleton character) = .ok none

/-- A run has a step for each character up to one without a transition. -/
theorem length_stepsFrom {count : Nat} {character : Char}
    (hwalk : dfa.walkFrom index ((characters.take count).map String.singleton) = .ok (some reached))
    (hcharacter : characters[count]? = some character)
    (hmissing : dfa.next reached (String.singleton character) = .ok none)
    (hsteps : dfa.stepsFrom index characters = .ok steps) : steps.length = count + 1 := by
  induction count generalizing index characters steps with
  | zero =>
    obtain ⟨rest, rfl⟩ : ∃ rest, characters = character :: rest := by
      rw [← List.head?_eq_getElem?] at hcharacter
      exact List.head?_eq_some_iff.1 hcharacter
    cases hwalk
    rw [stepsFrom, hmissing] at hsteps
    cases hsteps
    rfl
  | succ count ih =>
    cases characters with
    | nil => cases hcharacter
    | cons first rest =>
      obtain ⟨target, hnext, hresult⟩ := Traversal.bind_eq_ok_iff.1 hsteps
      cases target with
      | none =>
        rw [List.take_succ_cons, List.map_cons, walkFrom, hnext] at hwalk
        cases hwalk
      | some target =>
        obtain ⟨others, hothers, hlast⟩ := Traversal.bind_eq_ok_iff.1 hresult
        cases hlast
        rw [walkFrom_of_next hnext] at hwalk
        exact congrArg (· + 1) (ih hwalk hcharacter hothers)

/-- A walk that breaks off with one more symbol misses a transition there. -/
theorem next_of_walk {word : List String} {symbol : String}
    (hwalk : dfa.walk word = .ok (some reached)) (hlost : dfa.walk (word ++ [symbol]) = .ok none) :
    dfa.next reached symbol = .ok none := by
  rw [walk_append hwalk, walkFrom] at hlost
  obtain ⟨target, hnext, hresult⟩ := Traversal.bind_eq_ok_iff.1 hlost
  cases target with
  | none => exact hnext
  | some target => cases hresult

/-- The columns of a run show the walk on the text. -/
structure Records (dfa : Dfa) (text : String) (run : Run) (length : Nat) : Prop where
  length_counts : run.counts.length = length
  length_states : run.states.length = length
  length_texts : run.texts.length = length
  length_messages : run.messages.length = length
  count_eq : ∀ place < length, run.counts[place]? = some (place + 1)
  state_eq : ∀ place < length, ∃ reached,
    dfa.walk ((symbolsOf text).take place) = .ok (some reached) ∧
      run.states[place]? = some reached
  text_eq : ∀ place < length, run.texts[place]? = some (String.ofList (text.toList.drop place))
  length_of_missing : ∀ index, dfa.MissesAt text index → length = index + 1
  length_of_whole : (∀ index, ¬ dfa.MissesAt text index) → length = text.length + 1
  error_last : ∀ place, run.messages[place]? = some "error" → place + 1 = length
  error_iff : "error" ∈ run.messages ↔ dfa.accepts text = .ok false

/-- The columns grow by one entry in each step, so that all four have the length of the walk. -/
theorem records_simulate {start : Nat} (hstart : dfa.start = some start) {text : String} {run : Run}
    (hrun : dfa.simulate text = .ok run) : dfa.Records text run run.steps.length := by
  have hcases := simulate_cases hstart hrun
  have haccepts : dfa.accepts text = .ok run.accepted := by
    rw [← accepted_simulate, hrun]
    rfl
  rw [simulate, hstart] at hrun
  obtain ⟨steps, hsteps, hresult⟩ := Traversal.bind_eq_ok_iff.1 hrun
  cases hresult
  have horderly := orderly_stepsFrom hsteps
  constructor
  case length_counts => exact List.length_range'
  case length_states => exact List.length_map _
  case length_texts => exact List.length_map _
  case length_messages => exact List.length_map _
  case count_eq =>
    intro place hplace
    rw [Run.counts, List.getElem?_range' hplace]
    simp [Nat.add_comm]
  case state_eq =>
    intro place hplace
    have hstep := List.getElem?_eq_getElem hplace
    refine ⟨steps[place].state, ?_, ?_⟩
    · rw [walk, hstart, symbolsOf, ← List.map_take]
      exact (getElem?_stepsFrom hsteps hstep).1
    · rw [Run.states, List.getElem?_map, hstep, Option.map_some]
  case text_eq =>
    intro place hplace
    have hstep := List.getElem?_eq_getElem hplace
    rw [Run.texts, List.getElem?_map, hstep, Option.map_some,
      (getElem?_stepsFrom hsteps hstep).2]
  case length_of_missing =>
    rintro index ⟨reached, character, hwalk, hcharacter, hmissing⟩
    rw [walk, hstart, symbolsOf, ← List.map_take] at hwalk
    exact length_stepsFrom hwalk hcharacter hmissing hsteps
  case length_of_whole =>
    intro hnever
    rcases hcases with ⟨count, hcount, -, hlost, hbefore⟩ | ⟨hreads, -⟩
    · obtain ⟨reached, hwalk⟩ := hbefore count le_rfl
      have hbound : count < text.toList.length := by rwa [String.length_toList]
      refine absurd ⟨reached, text.toList[count], hwalk, List.getElem?_eq_getElem hbound, ?_⟩
        (hnever count)
      apply next_of_walk hwalk
      rw [← hlost, symbolsOf, ← List.map_take, ← List.map_take,
        List.take_succ_eq_append_getElem hbound, List.map_append, List.map_singleton]
    · rw [hreads.length, String.length_toList]
  case error_last => exact fun place herror => horderly.error_last herror
  case error_iff =>
    rw [horderly.error_mem_iff, haccepts]
    exact ⟨fun hrejected => congrArg Except.ok hrejected, Except.ok.inj⟩

theorem simulate_eq_error_iff {text : String} {failure : Failure} :
    dfa.simulate text = .error failure ↔ dfa.accepts text = .error failure := by
  rw [← accepted_simulate, Traversal.map_eq_error_iff]

theorem accepts_eq_error {text : String} {failure : Failure}
    (haccepts : dfa.accepts text = .error failure) : failure = .noSuchState := by
  unfold accepts at haccepts
  split at haccepts
  · cases haccepts
  · exact acceptsFrom_eq_error haccepts

/-- The run on a text fails exactly where reading the text fails, at a state that does not exist.
Otherwise it comes to the same answer, which the verdict words, and unless the automaton is empty
its columns show the walk on the text. -/
theorem run_record_exact (dfa : Dfa) (text : String) :
    (dfa.simulate text = .error .noSuchState ↔ dfa.accepts text = .error .noSuchState) ∧
    (dfa.accepts text ≠ .error .noSuchState → ∃ run, dfa.simulate text = .ok run ∧
      dfa.accepts text = .ok run.accepted ∧ (run.verdict = "Success!" ↔ run.accepted = true) ∧
      (dfa.isEmpty = true → run.steps = []) ∧
      (dfa.isEmpty = false → ∃ length, dfa.Records text run length)) := by
  refine ⟨simulate_eq_error_iff, fun hsound => ?_⟩
  cases haccepts : dfa.accepts text with
  | error failure => exact absurd (accepts_eq_error haccepts ▸ haccepts) hsound
  | ok answer =>
    obtain ⟨run, hrun, rfl⟩ := exists_simulate haccepts
    refine ⟨run, hrun, rfl, Run.verdict_eq_success_iff, fun hempty => ?_, fun hnonempty => ?_⟩
    · have hstart : dfa.start = none := Option.isNone_iff_eq_none.1 hempty
      rw [simulate, hstart] at hrun
      cases hrun
      rfl
    · obtain ⟨start, hstart⟩ := Option.isSome_iff_exists.1 (Option.isNone_eq_false_iff.1 hnonempty)
      exact ⟨_, records_simulate hstart hrun⟩

/-- Two states, with one transition to a state that does not exist. -/
def partialDfa : Dfa where
  states := #[{ id := 0, transitions := [("a", 1), ("c", 5)] },
    { id := 1, accepting := true, transitions := [("b", 0)] }]
  alphabet := ["a", "b", "c"]
  start := some 0

/-- The run on a text breaks off at its third character; on another text there is no run. -/
theorem run_record_exact_partialDfa :
    (partialDfa.accepts "abb" ≠ .error .noSuchState ∧ partialDfa.isEmpty = false ∧
      ∃ run, partialDfa.simulate "abb" = .ok run ∧ partialDfa.accepts "abb" = .ok run.accepted ∧
        partialDfa.Records "abb" run 3) ∧
    partialDfa.simulate "abc" = .error .noSuchState := by
  have hmisses : partialDfa.MissesAt "abb" 2 := ⟨0, 'b', rfl, rfl, rfl⟩
  have hsound : partialDfa.accepts "abb" ≠ .error .noSuchState := by decide
  obtain ⟨run, hrun, haccepts, -, -, hrecords⟩ := (run_record_exact partialDfa "abb").2 hsound
  obtain ⟨length, hlength⟩ := hrecords rfl
  obtain rfl := hlength.length_of_missing 2 hmisses
  exact ⟨⟨hsound, rfl, run, hrun, haccepts, hlength⟩, (run_record_exact partialDfa "abc").1.2 rfl⟩

end Dfa
end RegexAutomata
