import RegexAutomata.Proofs.Dfa.Constructed
import RegexAutomata.Proofs.Dfa.DirectImage
import RegexAutomata.Proofs.Dfa.Run
import RegexAutomata.Proofs.Regex.Literals

/-!
# Where a run breaks off

A homomorphism carries a run over step by step, so that nothing but the numbers of the states is
different afterwards.  In the automata of a tree every state leads on to acceptance.  Hence a run
breaks off exactly at the first character up to which the text begins no word of the tree, and it
does so in both constructions at once.
-/

namespace RegexAutomata

def Outcome.renamed (image : Nat → Nat) : Outcome → Outcome
  | moved character target => moved character (image target)
  | stuck character => stuck character
  | accepted => accepted
  | rejected => rejected

def RunStep.renamed (image : Nat → Nat) (step : RunStep) : RunStep :=
  ⟨image step.state, step.remaining, step.outcome.renamed image⟩

namespace Run

def renamed (image : Nat → Nat) (run : Run) : Run :=
  ⟨run.steps.map (RunStep.renamed image)⟩

/-- The character of this index is the last to be read: there is no transition for it. -/
structure BreaksOffAt (run : Run) (index : Nat) : Prop where
  length : run.steps.length = index + 1
  stuck : ∃ step character, run.steps.getLast? = some step ∧ step.outcome = .stuck character

/-- All characters are read, and the last step says whether the state after them accepts. -/
structure ReadsThrough (run : Run) (characters : List Char) : Prop where
  length : run.steps.length = characters.length + 1
  decided : ∃ step, run.steps.getLast? = some step ∧
    (step.outcome = .accepted ∨ step.outcome = .rejected)

/-- Two runs show the same, but for the states. -/
structure Alike (run other : Run) : Prop where
  counts : run.counts = other.counts
  remaining : run.steps.map RunStep.remaining = other.steps.map RunStep.remaining
  accepted : run.accepted = other.accepted

section Renaming

variable (image : Nat → Nat) (run : Run)

theorem getLast?_renamed :
    (run.renamed image).steps.getLast? = run.steps.getLast?.map (RunStep.renamed image) :=
  List.getLast?_map

theorem alike_renamed : run.Alike (run.renamed image) where
  counts := by simp [counts, renamed]
  remaining := by simp [renamed, RunStep.renamed, Function.comp_def]
  accepted := by
    rw [accepted, accepted, getLast?_renamed]
    cases run.steps.getLast? with
    | none => rfl
    | some step =>
      cases houtcome : step.outcome <;> simp [RunStep.renamed, Outcome.renamed, houtcome]

variable {run}

theorem BreaksOffAt.renamed {index : Nat} (hbreak : run.BreaksOffAt index) :
    (run.renamed image).BreaksOffAt index := by
  obtain ⟨step, character, hlast, houtcome⟩ := hbreak.stuck
  refine ⟨?_, step.renamed image, character, ?_, ?_⟩
  · rw [Run.renamed, List.length_map, hbreak.length]
  · rw [getLast?_renamed, hlast, Option.map_some]
  · rw [RunStep.renamed, houtcome, Outcome.renamed]

theorem ReadsThrough.renamed {characters : List Char} (hreads : run.ReadsThrough characters) :
    (run.renamed image).ReadsThrough characters := by
  obtain ⟨step, hlast, houtcome⟩ := hreads.decided
  refine ⟨?_, step.renamed image, ?_, ?_⟩
  · rw [Run.renamed, List.length_map, hreads.length]
  · rw [getLast?_renamed, hlast, Option.map_some]
  · apply houtcome.imp <;>
    · intro hequal
      rw [RunStep.renamed, hequal, Outcome.renamed]

end Renaming

section Cons

variable {step : RunStep} {steps : List RunStep}

theorem BreaksOffAt.cons {index : Nat} (hbreak : BreaksOffAt ⟨steps⟩ index) :
    BreaksOffAt ⟨step :: steps⟩ (index + 1) := by
  have hsteps : steps ≠ [] := List.ne_nil_of_length_eq_add_one hbreak.length
  refine ⟨congrArg (· + 1) hbreak.length, ?_⟩
  rw [List.getLast?_cons_of_ne_nil hsteps]
  exact hbreak.stuck

theorem ReadsThrough.cons {character : Char} {rest : List Char}
    (hreads : ReadsThrough ⟨steps⟩ rest) : ReadsThrough ⟨step :: steps⟩ (character :: rest) := by
  have hsteps : steps ≠ [] := List.ne_nil_of_length_eq_add_one hreads.length
  refine ⟨congrArg (· + 1) hreads.length, ?_⟩
  rw [List.getLast?_cons_of_ne_nil hsteps]
  exact hreads.decided

end Cons

/-- Where a run breaks off, it does not read through, and it breaks off nowhere else. -/
theorem BreaksOffAt.unique {run : Run} {index other : Nat} (hbreak : run.BreaksOffAt index)
    (hother : run.BreaksOffAt other) : index = other :=
  Nat.succ.inj (hbreak.length.symm.trans hother.length)

theorem BreaksOffAt.not_readsThrough {run : Run} {index : Nat} {characters : List Char}
    (hbreak : run.BreaksOffAt index) : ¬ run.ReadsThrough characters := by
  intro hreads
  obtain ⟨step, character, hlast, hstuck⟩ := hbreak.stuck
  obtain ⟨other, hother, hdecided⟩ := hreads.decided
  obtain rfl := Option.some.inj (hlast.symm.trans hother)
  rw [hstuck] at hdecided
  exact hdecided.elim Outcome.noConfusion Outcome.noConfusion

end Run

namespace Dfa

variable {dfa : Dfa} {index target : Nat} {characters : List Char} {steps : List RunStep}

def Carries (dfa : Dfa) (index : Nat) (characters : List Char) (count : Nat) : Prop :=
  ∃ reached, dfa.walkFrom index ((characters.take count).map String.singleton) = .ok (some reached)

theorem carries_zero (dfa : Dfa) (index : Nat) (characters : List Char) :
    dfa.Carries index characters 0 :=
  ⟨index, rfl⟩

section Next

variable {character : Char} {rest : List Char}

theorem walkFrom_of_next (hnext : dfa.next index (String.singleton character) = .ok (some target))
    (count : Nat) :
    dfa.walkFrom index (((character :: rest).take (count + 1)).map String.singleton) =
      dfa.walkFrom target ((rest.take count).map String.singleton) := by
  rw [List.take_succ_cons, List.map_cons, walkFrom, hnext]
  rfl

theorem Carries.cons (hnext : dfa.next index (String.singleton character) = .ok (some target))
    {bound : Nat} (hcarries : ∀ count ≤ bound, dfa.Carries target rest count) :
    ∀ count ≤ bound + 1, dfa.Carries index (character :: rest) count := by
  intro count hcount
  cases count with
  | zero => exact dfa.carries_zero index _
  | succ count =>
    rw [Carries, walkFrom_of_next hnext]
    exact hcarries count (Nat.le_of_succ_le_succ hcount)

end Next

/-- A run breaks off where the characters lead to a state no longer, or else it reads through. -/
theorem stepsFrom_cases (hsteps : dfa.stepsFrom index characters = .ok steps) :
    (∃ count < characters.length, Run.BreaksOffAt ⟨steps⟩ count ∧
        dfa.walkFrom index ((characters.take (count + 1)).map String.singleton) = .ok none ∧
        ∀ shorter ≤ count, dfa.Carries index characters shorter) ∨
      (Run.ReadsThrough ⟨steps⟩ characters ∧
        ∀ count ≤ characters.length, dfa.Carries index characters count) := by
  induction characters generalizing index steps with
  | nil =>
    obtain ⟨state, -, hresult⟩ := Traversal.bind_eq_ok_iff.1 hsteps
    cases hresult
    refine Or.inr ⟨⟨rfl, _, rfl, ?_⟩, fun count hcount => ?_⟩
    · cases state.accepting <;> simp
    · rw [Nat.le_zero.1 hcount]
      exact dfa.carries_zero index []
  | cons character rest ih =>
    obtain ⟨reached, hnext, hresult⟩ := Traversal.bind_eq_ok_iff.1 hsteps
    cases reached with
    | none =>
      cases hresult
      refine Or.inl ⟨0, Nat.succ_pos _, ⟨rfl, _, character, rfl, rfl⟩, ?_,
        fun shorter hshorter => ?_⟩
      · rw [List.take_succ_cons, List.map_cons, walkFrom, hnext]
        rfl
      · rw [Nat.le_zero.1 hshorter]
        exact dfa.carries_zero index _
    | some target =>
      obtain ⟨others, hothers, hlast⟩ := Traversal.bind_eq_ok_iff.1 hresult
      cases hlast
      rcases ih hothers with ⟨count, hcount, hbreak, hlost, hcarries⟩ | ⟨hreads, hcarries⟩
      · refine Or.inl ⟨count + 1, Nat.succ_lt_succ hcount, hbreak.cons, ?_,
          Carries.cons hnext hcarries⟩
        rw [walkFrom_of_next hnext]
        exact hlost
      · exact Or.inr ⟨hreads.cons, Carries.cons hnext hcarries⟩

/-- A homomorphism carries runs over. -/
theorem Homomorphism.stepsFrom {source target : Dfa} {image : Nat → Nat}
    (himage : Homomorphism source target image)
    (hsteps : source.stepsFrom index characters = .ok steps) :
    target.stepsFrom (image index) characters = .ok (steps.map (RunStep.renamed image)) := by
  induction characters generalizing index steps with
  | nil =>
    obtain ⟨state, hstate, hresult⟩ := Traversal.bind_eq_ok_iff.1 hsteps
    cases hresult
    obtain ⟨other, hother, haccepting⟩ := himage.accepting index state hstate
    rw [Dfa.stepsFrom, hother]
    cases hequal : state.accepting <;>
      simp [haccepting, hequal, RunStep.renamed, Outcome.renamed, bind, Except.bind, pure,
        Except.pure]
  | cons character rest ih =>
    obtain ⟨reached, hnext, hresult⟩ := Traversal.bind_eq_ok_iff.1 hsteps
    rw [Dfa.stepsFrom, himage.next index _ reached hnext]
    cases reached with
    | none =>
      cases hresult
      rfl
    | some middle =>
      obtain ⟨others, hothers, hlast⟩ := Traversal.bind_eq_ok_iff.1 hresult
      cases hlast
      have hrest := ih hothers
      simp only [Option.map_some, hrest, bind, Except.bind, pure, Except.pure]
      rfl

theorem Homomorphism.simulate {source target : Dfa} {image : Nat → Nat}
    (himage : Homomorphism source target image) {text : String} {run : Run}
    (hrun : source.simulate text = .ok run) :
    target.simulate text = .ok (run.renamed image) := by
  obtain ⟨start, -, hsource, htarget⟩ := himage.start
  rw [Dfa.simulate, hsource] at hrun
  obtain ⟨steps, hsteps, hresult⟩ := Traversal.bind_eq_ok_iff.1 hrun
  cases hresult
  rw [Dfa.simulate, htarget]
  simp only [himage.stepsFrom hsteps, bind, Except.bind, pure, Except.pure]
  rfl

/-- A run on a text breaks off where the walk does, or else it reads through. -/
theorem simulate_cases {start : Nat} (hstart : dfa.start = some start) {text : String} {run : Run}
    (hrun : dfa.simulate text = .ok run) :
    (∃ count < text.length, run.BreaksOffAt count ∧
        dfa.walk ((symbolsOf text).take (count + 1)) = .ok none ∧
        ∀ shorter ≤ count, ∃ reached,
          dfa.walk ((symbolsOf text).take shorter) = .ok (some reached)) ∨
      (run.ReadsThrough text.toList ∧ ∀ count ≤ text.length, ∃ reached,
        dfa.walk ((symbolsOf text).take count) = .ok (some reached)) := by
  rw [simulate, hstart] at hrun
  obtain ⟨steps, hsteps, hresult⟩ := Traversal.bind_eq_ok_iff.1 hrun
  cases hresult
  have hcases := stepsFrom_cases hsteps
  simp only [Carries, List.map_take, String.length_toList] at hcases
  simpa only [walk, hstart, symbolsOf] using hcases

end Dfa

namespace Regex

/-- Some word of the tree begins like this. -/
def Viable (regex : Regex) (word : List String) : Prop :=
  ∃ rest, word ++ rest ∈ regex.language

/-- Up to the character of this index, and no earlier, the text begins no word of the tree. -/
structure StraysAt (regex : Regex) (text : String) (index : Nat) : Prop where
  bound : index < text.length
  lost : ¬ regex.Viable ((symbolsOf text).take (index + 1))
  before : ∀ shorter ≤ index, regex.Viable ((symbolsOf text).take shorter)

theorem StraysAt.unique {regex : Regex} {text : String} {index other : Nat}
    (hstrays : regex.StraysAt text index) (hother : regex.StraysAt text other) : index = other := by
  apply Nat.le_antisymm
  · by_contra hless
    exact hother.lost (hstrays.before _ (Nat.not_le.1 hless))
  · by_contra hless
    exact hstrays.lost (hother.before _ (Nat.not_le.1 hless))

/-- The run breaks off where the text strays from the words of the tree, or else it reads the text
through. -/
def Tracks (regex : Regex) (text : String) (run : Run) : Prop :=
  (∃ index, run.BreaksOffAt index ∧ regex.StraysAt text index) ∨
    (run.ReadsThrough text.toList ∧ ∀ index, ¬ regex.StraysAt text index)

namespace Tracks

variable {regex : Regex} {text : String} {run : Run} (htracks : regex.Tracks text run)

include htracks

theorem renamed (image : Nat → Nat) : regex.Tracks text (run.renamed image) := by
  rcases htracks with ⟨index, hbreak, hstrays⟩ | ⟨hreads, hnever⟩
  · exact Or.inl ⟨index, hbreak.renamed image, hstrays⟩
  · exact Or.inr ⟨hreads.renamed image, hnever⟩

theorem breaksOffAt_iff (index : Nat) : run.BreaksOffAt index ↔ regex.StraysAt text index := by
  rcases htracks with ⟨other, hbreak, hstrays⟩ | ⟨hreads, hnever⟩
  · constructor
    · intro hindex
      rwa [hindex.unique hbreak]
    · intro hindex
      rwa [hindex.unique hstrays]
  · exact iff_of_false (fun hbreak => hbreak.not_readsThrough hreads) (hnever index)

theorem readsThrough (hnever : ∀ index, ¬ regex.StraysAt text index) :
    run.ReadsThrough text.toList := by
  rcases htracks with ⟨index, -, hstrays⟩ | ⟨hreads, -⟩
  · exact absurd hstrays (hnever index)
  · exact hreads

end Tracks

/-- A word leads somewhere in the assembled automaton exactly if some word of the tree begins
like it. -/
theorem exists_path_iff_viable {regex : Regex} {nfa : Nfa} (hknown : regex.isKnown)
    (hvalues : epsilon ∉ regex.values) (hnfa : Nfa.ofRegex regex = .ok nfa) {word : List String} :
    (∃ id, nfa.Path nfa.start word id) ↔ regex.Viable word := by
  simp only [Nfa.path_ofRegex hknown hnfa]
  have hspells := Fragment.spells_language hknown hvalues 0
  constructor
  · rintro ⟨id, htrail⟩
    have hwithin := Fragment.within_of_trail hknown (Fragment.within_start hknown) htrail
    obtain ⟨rest, hrest⟩ := Fragment.drains hknown 0 id hwithin
    exact ⟨rest, (hspells _).1 (htrail.append hrest)⟩
  · rintro ⟨rest, hmem⟩
    obtain ⟨id, htrail, -⟩ := ((hspells _).2 hmem).exists_of_append
    exact ⟨id, htrail⟩

/-- The walk of the determinized automaton breaks off exactly on words like which no word of the
tree begins. -/
theorem walk_ofNfa_eq {regex : Regex} {nfa : Nfa} {subset : Dfa} (hknown : regex.isKnown)
    (hvalues : epsilon ∉ regex.values) (hnfa : Nfa.ofRegex regex = .ok nfa)
    (hsubset : Dfa.ofNfa nfa none = .ok subset) (word : List String) :
    (subset.walk word = .ok none ∧ ¬ regex.Viable word) ∨
      ∃ reached, subset.walk word = .ok (some reached) ∧ regex.Viable word := by
  obtain ⟨other, hother, hwalks⟩ := Dfa.walk_ofNfa (Nfa.intact_ofRegex hknown hnfa)
  obtain rfl := Except.ok.inj (hother.symm.trans hsubset)
  obtain ⟨reached, hwalk, hsome, -⟩ := hwalks word
  rw [exists_path_iff_viable hknown hvalues hnfa] at hsome
  cases reached with
  | none => exact Or.inl ⟨hwalk, fun hviable => Bool.false_ne_true (hsome.2 hviable)⟩
  | some index => exact Or.inr ⟨index, hwalk, hsome.1 rfl⟩

/-- The runs of the determinized automaton track the words of the tree. -/
theorem tracks_simulate_ofNfa {regex : Regex} {nfa : Nfa} {subset : Dfa} {start : Nat}
    (hknown : regex.isKnown) (hvalues : epsilon ∉ regex.values)
    (hnfa : Nfa.ofRegex regex = .ok nfa) (hsubset : Dfa.ofNfa nfa none = .ok subset)
    (hstart : subset.start = some start) {text : String} {run : Run}
    (hrun : subset.simulate text = .ok run) : regex.Tracks text run := by
  have hviable : ∀ {word reached}, subset.walk word = .ok (some reached) → regex.Viable word := by
    intro word reached hwalk
    rcases walk_ofNfa_eq hknown hvalues hnfa hsubset word with ⟨hlost, -⟩ | ⟨_, -, hviable⟩
    · exact absurd (hwalk.symm.trans hlost) (by simp)
    · exact hviable
  rcases Dfa.simulate_cases hstart hrun with
    ⟨count, hcount, hbreak, hwalk, hbefore⟩ | ⟨hreads, hall⟩
  · refine Or.inl ⟨count, hbreak, hcount, ?_, fun shorter hshorter => ?_⟩
    · rcases walk_ofNfa_eq hknown hvalues hnfa hsubset _ with ⟨-, hlost⟩ | ⟨_, hfound, -⟩
      · exact hlost
      · exact absurd (hwalk.symm.trans hfound) (by simp)
    · obtain ⟨reached, hreached⟩ := hbefore shorter hshorter
      exact hviable hreached
  · refine Or.inr ⟨hreads, fun index hstrays => hstrays.lost ?_⟩
    obtain ⟨reached, hreached⟩ := hall (index + 1) hstrays.bound
    exact hviable hreached

/-- Both automata of a tree, and the map from the states of the one to those of the other. -/
theorem exists_image {regex : Regex} (hknown : regex.isKnown) (hvalues : epsilon ∉ regex.values) :
    ∃ nfa subset direct trace image, Nfa.ofRegex regex = .ok nfa ∧
      Dfa.ofNfa nfa none = .ok subset ∧ regex.direct none = .ok (direct, trace) ∧
      Dfa.Homomorphism subset direct image := by
  obtain ⟨marked, finish, hmarked, rfl, hpositions, hfinish⟩ := marked_eq hknown
  have hnfa := Nfa.ofRegex_eq hknown
  obtain ⟨subset, direct, trace, image, hsubset, hdirect, himage⟩ :=
    Dfa.exists_homomorphism (MarkedRegex.distinct_of_consecutive hpositions) hfinish hvalues hnfa
  refine ⟨_, subset, direct, trace, image, hnfa, hsubset, ?_, himage⟩
  exact (Regex.direct_of_marked hmarked none).trans hdirect

/-- The runs of both automata of a tree that was read show the same, but for the states: they break
off together, at the first character up to which the text begins no word of the tree, and if there
is no such character they read the text through. -/
theorem simulate_exact {written : String} {regex : Regex} (hparse : parse written = .ok regex) :
    ∃ nfa subset direct trace, Nfa.ofRegex regex = .ok nfa ∧ Dfa.ofNfa nfa none = .ok subset ∧
      regex.direct none = .ok (direct, trace) ∧
      ∀ text, ∃ run other, subset.simulate text = .ok run ∧ direct.simulate text = .ok other ∧
        run.Alike other ∧
        (∀ index, run.BreaksOffAt index ↔ regex.StraysAt text index) ∧
        (∀ index, other.BreaksOffAt index ↔ regex.StraysAt text index) ∧
        ((∀ index, ¬ regex.StraysAt text index) →
          run.ReadsThrough text.toList ∧ other.ReadsThrough text.toList) := by
  have hderives := derives_of_parse hparse
  have hknown := hderives.isKnown
  have hvalues := hderives.epsilon_not_mem
  obtain ⟨nfa, subset, direct, trace, image, hnfa, hsubset, hdirect, himage⟩ :=
    exists_image hknown hvalues
  obtain ⟨start, -, hstart, -⟩ := himage.start
  obtain ⟨found, hfound, hrecognizes⟩ := Dfa.recognizes_ofNfa hknown hderives.isSingle hvalues hnfa
  obtain rfl := Except.ok.inj (hfound.symm.trans hsubset)
  refine ⟨nfa, found, direct, trace, hnfa, hsubset, hdirect, fun text => ?_⟩
  obtain ⟨answer, haccepts, -⟩ := hrecognizes.accepts text
  obtain ⟨run, hrun, -⟩ := Dfa.exists_simulate haccepts
  have htracks := tracks_simulate_ofNfa hknown hvalues hnfa hsubset hstart hrun
  have hother := htracks.renamed image
  exact ⟨run, run.renamed image, hrun, himage.simulate hrun, run.alike_renamed image,
    htracks.breaksOffAt_iff, hother.breaksOffAt_iff,
    fun hnever => ⟨htracks.readsThrough hnever, hother.readsThrough hnever⟩⟩

theorem straysAt_second : (concat (char "a") (char "b")).StraysAt "acb" 1 := by
  have hlanguage : (concat (char "a") (char "b")).language = {["a", "b"]} :=
    Set.image2_singleton
  refine ⟨by decide, ?_, fun shorter hshorter => ?_⟩
  · rintro ⟨rest, hword⟩
    rw [hlanguage] at hword
    have hequal : "a" :: "c" :: rest = ["a", "b"] := hword
    exact absurd (List.cons.inj (List.cons.inj hequal).2).1 (by decide)
  · rw [Viable, hlanguage]
    obtain rfl | rfl : shorter = 0 ∨ shorter = 1 := by omega
    · exact ⟨["a", "b"], rfl⟩
    · exact ⟨["b"], rfl⟩

theorem simulate_exact_second : parse "ab" = .ok (concat (char "a") (char "b")) ∧
    ∃ nfa subset direct trace, Nfa.ofRegex (concat (char "a") (char "b")) = .ok nfa ∧
      Dfa.ofNfa nfa none = .ok subset ∧
      (concat (char "a") (char "b")).direct none = .ok (direct, trace) ∧
      ∃ run other, subset.simulate "acb" = .ok run ∧ direct.simulate "acb" = .ok other ∧
        run.Alike other ∧ run.BreaksOffAt 1 ∧ other.BreaksOffAt 1 := by
  have hparse : parse "ab" = .ok (concat (char "a") (char "b")) := rfl
  obtain ⟨nfa, subset, direct, trace, hnfa, hsubset, hdirect, hruns⟩ := simulate_exact hparse
  obtain ⟨run, other, hrun, hother, halike, hbreak, hbreaks, -⟩ := hruns "acb"
  exact ⟨hparse, nfa, subset, direct, trace, hnfa, hsubset, hdirect, run, other, hrun, hother,
    halike, (hbreak 1).2 straysAt_second, (hbreaks 1).2 straysAt_second⟩

end Regex
end RegexAutomata
