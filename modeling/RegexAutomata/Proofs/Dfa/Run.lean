import RegexAutomata.Dfa.Run

/-!
# Runs and acceptance

The last step of a run says whether the text is accepted, and a run fails where reading the text
fails.
-/

namespace RegexAutomata

theorem Run.accepted_cons (step : RunStep) {steps : List RunStep} (hsteps : steps ≠ []) :
    Run.accepted ⟨step :: steps⟩ = Run.accepted ⟨steps⟩ := by
  rw [Run.accepted, Run.accepted, List.getLast?_cons_of_ne_nil hsteps]

namespace Dfa

/-- Even the empty text makes a step. -/
theorem stepsFrom_ne_nil {dfa : Dfa} {index : Nat} {characters : List Char} {steps : List RunStep}
    (hsteps : dfa.stepsFrom index characters = .ok steps) : steps ≠ [] := by
  rintro rfl
  cases characters with
  | nil =>
    rw [stepsFrom] at hsteps
    cases hstate : dfa.state? index <;>
      simp [hstate, bind, Except.bind, pure, Except.pure] at hsteps
  | cons character rest =>
    rw [stepsFrom] at hsteps
    cases hnext : dfa.next index (String.singleton character) with
    | error failure => simp [hnext, bind, Except.bind] at hsteps
    | ok reached =>
      cases reached with
      | none => simp [hnext, bind, Except.bind, pure, Except.pure] at hsteps
      | some target =>
        cases hrest : dfa.stepsFrom target rest <;>
          simp [hnext, hrest, bind, Except.bind, pure, Except.pure] at hsteps

/-- A run fails where reading fails, and its last step says whether the text is accepted. -/
theorem accepted_stepsFrom (dfa : Dfa) (index : Nat) (characters : List Char) :
    (fun steps => Run.accepted ⟨steps⟩) <$> dfa.stepsFrom index characters =
      dfa.acceptsFrom index characters := by
  induction characters generalizing index with
  | nil =>
    rw [stepsFrom, acceptsFrom]
    cases dfa.state? index with
    | error failure => rfl
    | ok state => cases state.accepting <;> simp [Run.accepted]
  | cons character rest ih =>
    rw [stepsFrom, acceptsFrom]
    cases dfa.next index (String.singleton character) with
    | error failure => rfl
    | ok reached =>
      cases reached with
      | none => rfl
      | some target =>
        have hrest : (fun steps => Run.accepted ⟨steps⟩) <$> (do
            let steps ← dfa.stepsFrom target rest
            return ⟨index, character :: rest, .moved character target⟩ :: steps) =
            (fun steps => Run.accepted ⟨steps⟩) <$> dfa.stepsFrom target rest := by
          cases hsteps : dfa.stepsFrom target rest with
          | error failure => rfl
          | ok steps => exact congrArg Except.ok (Run.accepted_cons _ (stepsFrom_ne_nil hsteps))
        exact hrest.trans (ih target)

/-- The run on a text ends in acceptance exactly if the text is accepted. -/
theorem accepted_simulate (dfa : Dfa) (text : String) :
    Run.accepted <$> dfa.simulate text = dfa.accepts text := by
  unfold simulate accepts
  cases dfa.start with
  | none => rfl
  | some start =>
    refine Eq.trans ?_ (dfa.accepted_stepsFrom start text.toList)
    cases hsteps : dfa.stepsFrom start text.toList <;> simp only [hsteps] <;> rfl

theorem exists_simulate {dfa : Dfa} {text : String} {answer : Bool}
    (haccepts : dfa.accepts text = .ok answer) :
    ∃ run, dfa.simulate text = .ok run ∧ run.accepted = answer := by
  rw [← accepted_simulate] at haccepts
  cases hrun : dfa.simulate text with
  | error failure =>
    rw [hrun] at haccepts
    cases haccepts
  | ok run =>
    rw [hrun] at haccepts
    exact ⟨run, rfl, Except.ok.inj haccepts⟩

end Dfa
end RegexAutomata
