import RegexAutomata.Proofs.Service.Analysis
import RegexAutomata.Service.Session

/-!
# What the conditions do to an analysis

Whatever the conditions are under which an analysis is made, it is the one that is made without any.
They only decide whether there is one: nothing is made during an outage, and a limit on states
refuses exactly the analyses of which one automaton has more.
-/

namespace RegexAutomata.Analysis

open Exploration

/-- The number of states of the larger automaton. -/
def size (analysis : Analysis) : Nat :=
  max analysis.dfa.states.size analysis.directDfa.states.size

/-- Both deterministic automata keep to the limit on states, if there is one. -/
def Fits (analysis : Analysis) (conditions : Conditions) : Prop :=
  ∀ limit, conditions.maxStates = some limit →
    (analysis.dfa.states.size : Int) ≤ limit ∧ (analysis.directDfa.states.size : Int) ≤ limit

variable {conditions : Conditions} {text : String} {analysis made : Analysis}

theorem fits_of_none (hlimit : conditions.maxStates = none) : analysis.Fits conditions := by
  intro limit hsome
  rw [hlimit] at hsome
  cases hsome

theorem fits_iff {limit : Int} (hlimit : conditions.maxStates = some limit) :
    analysis.Fits conditions ↔ (analysis.size : Int) ≤ limit := by
  rw [Fits, hlimit]
  simp only [Option.some.injEq, forall_eq', size]
  omega

/-- The failures of an analysis are those of the text and of the limit. -/
theorem build_eq (hmade : build {} text = .ok made) (hworks : conditions.outage = false) :
    build conditions text =
      conditions.maxStates.elim (.ok made) fun limit => within limit made.size made := by
  have hfirst := first_of_build hmade
  obtain ⟨rfl, hparse, hnfa, hdfa, hannotated, hdirect⟩ := build_eq_ok hmade
  have hread : (Regex.parse made.regex).mapError Failure.malformed = .ok made.tree :=
    Traversal.mapError_eq_ok_iff.2 hparse
  have hassembled : assemble conditions made.tree = .ok made.nfa := by
    rw [assemble, hworks, if_neg Bool.false_ne_true, hnfa]
  have hparts : build conditions made.regex =
      (Dfa.ofNfa made.nfa conditions.maxStates >>= fun dfa =>
      made.table.direct conditions.maxStates >>= fun result =>
        .ok { made with dfa, directDfa := result.1, trace := result.2 }) := by
    simp only [build, hread, hassembled, hannotated, bind, Except.bind, pure, Except.pure]
    rfl
  rw [hparts]
  cases conditions.maxStates with
  | none =>
    have hplain : Dfa.ofNfa made.nfa none = .ok made.dfa := hdfa
    have hplainDirect : made.table.direct none = .ok (made.directDfa, made.trace) := hdirect
    rw [hplain, hplainDirect]
    rfl
  | some limit =>
    rw [Dfa.ofNfa_some hdfa, Option.elim_some]
    apply within_bind_within
    rw [FollowTable.direct_some hfirst hdirect]
    exact within_bind (Nat.le_refl _) fun hroom => (within_of_le hroom _).symm

/-- Nothing is made during an outage. -/
theorem works_of_build (hbuild : build conditions text = .ok analysis) :
    conditions.outage = false := by
  obtain ⟨tree, -, hrest⟩ := Traversal.bind_eq_ok_iff.1 hbuild
  obtain ⟨nfa, hassembled, -⟩ := Traversal.bind_eq_ok_iff.1 hrest
  by_contra houtage
  rw [assemble, if_pos (Bool.eq_true_of_not_eq_false houtage)] at hassembled
  cases hassembled

/-- What is made under any conditions is what is made under none, if it fits. -/
theorem build_eq_ok_iff (hmade : build {} text = .ok made) :
    build conditions text = .ok analysis ↔
      conditions.outage = false ∧ made.Fits conditions ∧ made = analysis := by
  constructor
  · intro hbuild
    have hworks := works_of_build hbuild
    rw [build_eq hmade hworks] at hbuild
    cases hlimit : conditions.maxStates with
    | none =>
      rw [hlimit] at hbuild
      exact ⟨hworks, fits_of_none hlimit, Except.ok.inj hbuild⟩
    | some limit =>
      rw [hlimit, Option.elim_some, within_eq_ok_iff] at hbuild
      exact ⟨hworks, (fits_iff hlimit).2 hbuild.1, hbuild.2⟩
  · rintro ⟨hworks, hfits, rfl⟩
    rw [build_eq hmade hworks]
    cases hlimit : conditions.maxStates with
    | none => rfl
    | some limit => exact within_of_le ((fits_iff hlimit).1 hfits) made

theorem build_unlimited (hbuild : build conditions text = .ok analysis) :
    build {} text = .ok analysis := by
  obtain ⟨made, hmade⟩ := exists_build_eq_ok (build_eq_ok hbuild).2.1
  obtain ⟨-, -, rfl⟩ := (build_eq_ok_iff hmade).1 hbuild
  exact hmade

/-- What cannot be read is refused as such, whatever the conditions are. -/
theorem build_of_parse_eq_error {fault : SyntaxError} (hparse : Regex.parse text = .error fault)
    (conditions : Conditions) : build conditions text = .error (.malformed fault) := by
  have hread : (Regex.parse text).mapError Failure.malformed = .error (.malformed fault) := by
    rw [hparse]
    rfl
  rw [build, hread]
  rfl

/-- If nothing is out of order, what can be read fails for the limit only. -/
theorem tooManyStates_of_build {failure : Failure} (hmade : build {} text = .ok made)
    (hworks : conditions.outage = false) (hbuild : build conditions text = .error failure) :
    ∃ limit, conditions.maxStates = some limit ∧ failure = .tooManyStates limit := by
  rw [build_eq hmade hworks] at hbuild
  cases hlimit : conditions.maxStates with
  | none =>
    rw [hlimit] at hbuild
    cases hbuild
  | some limit =>
    rw [hlimit, Option.elim_some, within] at hbuild
    split at hbuild
    · cases hbuild
    · cases hbuild
      exact ⟨limit, rfl, rfl⟩

/-- If nothing is out of order, an analysis fails for its text or for the limit. -/
theorem rejected_of_build {failure : Failure} (hworks : conditions.outage = false)
    (hbuild : build conditions text = .error failure) :
    ∃ diagnostic, Refusal.ofFailure failure = .rejected diagnostic := by
  cases hparse : Regex.parse text with
  | error fault =>
    have hfault := build_of_parse_eq_error hparse conditions
    obtain rfl := Except.error.inj (hfault.symm.trans hbuild)
    exact ⟨_, rfl⟩
  | ok tree =>
    obtain ⟨made, hmade⟩ := exists_build_eq_ok hparse
    obtain ⟨limit, -, rfl⟩ := tooManyStates_of_build hmade hworks hbuild
    exact ⟨_, rfl⟩

end RegexAutomata.Analysis
