import RegexAutomata.Proofs.Dfa.Determinization
import RegexAutomata.Proofs.Nfa.Assembled
import RegexAutomata.Proofs.Nfa.Stations
import RegexAutomata.Proofs.Position.Rows

/-!
# Automata without useless states

A search numbers only what it reaches, so every state of a constructed automaton is reached by some
word.  In the automata of a tree every state also leads on to acceptance: each state of the
assembled automaton leads to its last one, and each position leads to the end marker.  So every
state lies on a run that ends in acceptance, and there is no state in which rejected words gather.
-/

namespace RegexAutomata

namespace Dfa

def Coaccessible (dfa : Dfa) (index : Nat) : Prop :=
  ∃ word final state, dfa.walkFrom index word = .ok (some final) ∧
    dfa.state? final = .ok state ∧ state.accepting = true

/-- Every state is reached from the start and leads on to an accepting state. -/
structure Trim (dfa : Dfa) : Prop where
  accessible : ∀ index < dfa.states.size, dfa.Accessible index
  coaccessible : ∀ index < dfa.states.size, dfa.Coaccessible index

def OnAcceptingRun (dfa : Dfa) (index : Nat) : Prop :=
  ∃ before after, dfa.walk before = .ok (some index) ∧
    dfa.acceptsWord (before ++ after) = .ok true

/-- The state rejects, and no transition leads away from it. -/
def RejectingSink (dfa : Dfa) (index : Nat) : Prop :=
  ∃ state, dfa.state? index = .ok state ∧ state.accepting = false ∧
    ∀ symbol target, dfa.next index symbol = .ok (some target) → target = index

/-- Some word that begins like this is accepted. -/
def Viable (dfa : Dfa) (word : List String) : Prop :=
  ∃ rest, dfa.acceptsWord (word ++ rest) = .ok true

variable {dfa : Dfa} {index : Nat}

/-- A word is accepted if it leads to a state, and this state accepts. -/
theorem acceptsWord_eq_true_iff {word : List String} :
    dfa.acceptsWord word = .ok true ↔ ∃ final state, dfa.walk word = .ok (some final) ∧
      dfa.state? final = .ok state ∧ state.accepting = true := by
  constructor
  · intro haccepts
    obtain ⟨reached, hwalk, hrest⟩ := Traversal.bind_eq_ok_iff.1 haccepts
    cases reached with
    | none => cases hrest
    | some final =>
      obtain ⟨state, hstate, hresult⟩ := Traversal.bind_eq_ok_iff.1 hrest
      exact ⟨final, state, hwalk, hstate, Except.ok.inj hresult⟩
  · rintro ⟨final, state, hwalk, hstate, haccepting⟩
    rw [acceptsWord_eq hwalk, Option.elim_some, hstate]
    exact congrArg Except.ok haccepting

/-- If every word that leads to a state is viable, then states that are reached lead on to
acceptance. -/
theorem coaccessible_of_viable (haccessible : dfa.Accessible index)
    (hviable : ∀ word, (∃ reached, dfa.walk word = .ok (some reached)) → dfa.Viable word) :
    dfa.Coaccessible index := by
  obtain ⟨word, hwalk⟩ := haccessible
  obtain ⟨rest, haccepts⟩ := hviable word ⟨index, hwalk⟩
  obtain ⟨final, state, hfinal, hstate, haccepting⟩ := acceptsWord_eq_true_iff.1 haccepts
  rw [walk_append hwalk] at hfinal
  exact ⟨rest, final, state, hfinal, hstate, haccepting⟩

theorem Trim.onAcceptingRun (htrim : dfa.Trim) (hindex : index < dfa.states.size) :
    dfa.OnAcceptingRun index := by
  obtain ⟨before, hbefore⟩ := htrim.accessible index hindex
  obtain ⟨after, final, state, hafter, hstate, haccepting⟩ := htrim.coaccessible index hindex
  refine ⟨before, after, hbefore, acceptsWord_eq_true_iff.2 ⟨final, state, ?_, hstate, haccepting⟩⟩
  rw [walk_append hbefore, hafter]

/-- No word leads away from a state that all of its transitions lead back to. -/
theorem eq_of_walkFrom
    (hloops : ∀ symbol target, dfa.next index symbol = .ok (some target) → target = index)
    {word : List String} {final : Nat} (hwalk : dfa.walkFrom index word = .ok (some final)) :
    final = index := by
  induction word with
  | nil => exact (Option.some.inj (Except.ok.inj hwalk)).symm
  | cons symbol rest ih =>
    obtain ⟨target, hnext, hrest⟩ := Traversal.bind_eq_ok_iff.1 hwalk
    cases target with
    | none => cases hrest
    | some target =>
      obtain rfl := hloops symbol target hnext
      exact ih hrest

theorem Trim.not_rejectingSink (htrim : dfa.Trim) : ¬ dfa.RejectingSink index := by
  rintro ⟨state, hstate, hrejects, hloops⟩
  have hindex : index < dfa.states.size :=
    (Array.getElem?_eq_some_iff.1 (state?_eq_ok_iff.1 hstate)).1
  obtain ⟨word, final, other, hwalk, hother, haccepting⟩ := htrim.coaccessible index hindex
  rw [eq_of_walkFrom hloops hwalk, hstate] at hother
  rw [Except.ok.inj hother, haccepting] at hrejects
  exact Bool.noConfusion hrejects

section Search

open Exploration

variable {κ : Type} [Ord κ] {exploration : Exploration κ} {alphabet symbols : List String}
  {state : Nat → κ → Table String Nat → State} {step : κ → String → Except Failure (Option κ)}
  {first : κ}

/-- A search makes a state only of what it reaches. -/
theorem accessible_ofExploration (hcomplete : Complete step symbols first exploration)
    (htransitions : ∀ number key table, (state number key table).transitions = table)
    (hindex : index < (ofExploration exploration alphabet state).states.size) :
    (ofExploration exploration alphabet state).Accessible index := by
  rw [size_states_ofExploration, Numbering.lt_size_iff] at hindex
  obtain ⟨key, hkey⟩ := hindex
  obtain ⟨word, hleads⟩ := (hcomplete.sound index key hkey).exists_leads
  refine ⟨word, ?_⟩
  rcases @walk_ofExploration κ _ exploration alphabet state step symbols first hcomplete
    htransitions word with ⟨number, final, hwalk, hfinal, hfound⟩ | ⟨-, hnever⟩
  · rw [← hleads.unique hfound] at hfinal
    rw [hwalk, Numbering.key?_injective hfinal hkey]
  · exact absurd hleads (hnever key)

theorem trim_ofExploration (hcomplete : Complete step symbols first exploration)
    (htransitions : ∀ number key table, (state number key table).transitions = table)
    (hviable : ∀ word,
      (∃ reached, (ofExploration exploration alphabet state).walk word = .ok (some reached)) →
        (ofExploration exploration alphabet state).Viable word) :
    (ofExploration exploration alphabet state).Trim where
  accessible _ hindex := accessible_ofExploration hcomplete htransitions hindex
  coaccessible _ hindex :=
    coaccessible_of_viable (accessible_ofExploration hcomplete htransitions hindex) hviable

end Search

section Subset

variable {regex : Regex} {nfa : Nfa} {subset : Dfa}

/-- From wherever a word leads in the assembled automaton, its last state is reached. -/
theorem viable_ofNfa (hknown : regex.isKnown) (hnfa : Nfa.ofRegex regex = .ok nfa)
    (hsubset : ofNfa nfa none = .ok subset) {word : List String}
    (hword : ∃ reached, subset.walk word = .ok (some reached)) : subset.Viable word := by
  obtain ⟨other, hother, hwalks⟩ := walk_ofNfa (Nfa.intact_ofRegex hknown hnfa)
  obtain rfl := Except.ok.inj (hother.symm.trans hsubset)
  obtain ⟨index, hindex⟩ := hword
  obtain ⟨reached, hreached, hsome, -⟩ := hwalks word
  obtain rfl := Except.ok.inj (hreached.symm.trans hindex)
  obtain ⟨id, hpath⟩ := hsome.1 rfl
  have htrail := (Nfa.path_ofRegex hknown hnfa).1 hpath
  obtain ⟨rest, hrest⟩ := Fragment.drains hknown 0 id
    (Fragment.within_of_trail hknown (Fragment.within_start hknown) htrail)
  rw [Nat.zero_add] at hrest
  have hexit := (Nfa.path_ofRegex hknown hnfa).2 (htrail.append hrest)
  have haccepting := (Nfa.isAccepting_ofRegex hknown hnfa
    (Nfa.within_of_reachable hknown hnfa (Nfa.Reachable.path .refl hexit))).2 rfl
  obtain ⟨last, hlast, hexists, hstate⟩ := hwalks (word ++ rest)
  obtain ⟨final, rfl⟩ := Option.isSome_iff_exists.1 (hexists.2 ⟨_, hexit⟩)
  obtain ⟨state, _, hfound, -, -, -, haccepts⟩ := hstate final rfl
  exact ⟨rest, acceptsWord_eq_true_iff.2
    ⟨final, state, hlast, hfound, haccepts.2 ⟨_, hexit, haccepting⟩⟩⟩

theorem trim_ofNfa (hknown : regex.isKnown) (hnfa : Nfa.ofRegex regex = .ok nfa)
    (hsubset : ofNfa nfa none = .ok subset) : subset.Trim := by
  obtain ⟨symbols, whole, first, exploration, -, -, -, -, hcomplete, hmade⟩ :=
    ofNfa_eq (Nfa.intact_ofRegex hknown hnfa)
  obtain rfl := Except.ok.inj (hmade.symm.trans hsubset)
  exact trim_ofExploration hcomplete (fun _ _ _ => rfl) fun _ => viable_ofNfa hknown hnfa hsubset

end Subset

end Dfa

section Direct

open Exploration MarkedRegex FollowTable

variable {marked : MarkedRegex} {finish position : Position}

/-- From every position some word leads to the end marker. -/
theorem MarkedRegex.exists_threads_finish (hdistinct : (marked.ended finish).Distinct)
    (hposition : position ∈ (marked.ended finish).positions) :
    ∃ word, Threads (marked.ended finish).Follows position word finish := by
  rcases mem_positions_ended.1 hposition with hown | rfl
  · obtain ⟨rest, hrest⟩ := exists_mem_after (fun _ value => value) hown
    obtain ⟨⟨_, value⟩, hleaf, rfl⟩ := List.mem_map.1 hown
    refine ⟨value :: rest, (threads_iff_mem_remaining hdistinct).2 (cons_mem_remaining.2 ?_)⟩
    exact ⟨_, List.mem_cons_self, hleaf, hrest⟩
  · exact ⟨[], rfl⟩

/-- From wherever a word leads in the direct automaton, the end marker is reached. -/
theorem Dfa.exists_mem_language_of_walk (hdistinct : (marked.ended finish).Distinct)
    (hfinish : finish = (marked.ended finish).leaves.length) {table : FollowTable}
    (htable : table = ofMarked (marked.ended finish)) {exploration : Exploration (List Position)}
    (hcomplete : Complete table.step table.alphabet table.first exploration) {word : List String}
    {index : Nat}
    (hwalk : (ofExploration exploration table.alphabet table.stateOf).walk word =
      .ok (some index)) : ∃ rest, word ++ rest ∈ marked.unmarked.language := by
  subst htable
  have htransitions : ∀ number key table,
      ((ofMarked (marked.ended finish)).stateOf number key table).transitions = table :=
    fun _ _ _ => rfl
  obtain ⟨reached, hreached, hsome, -⟩ := walk_of_collects (collects_ofMarked hdistinct hfinish)
    (marked.ended finish).ascending_first (marked.ended finish).first_within (first_ne_nil _)
    hcomplete htransitions (ofMarked (marked.ended finish)).alphabet word
  obtain rfl := Except.ok.inj (hreached.symm.trans hwalk)
  obtain ⟨position, before, hbefore, hthreads⟩ := hsome.1 rfl
  obtain ⟨rest, hrest⟩ := exists_threads_finish hdistinct
    (mem_positions_of_threads ((marked.ended finish).first_subset hbefore) hthreads)
  exact ⟨rest, (exists_threads_iff hdistinct).1 ⟨before, hbefore, hthreads.append hrest⟩⟩

theorem Regex.trim_direct {regex : Regex} (hknown : regex.isKnown) :
    ∃ dfa trace, regex.direct none = .ok (dfa, trace) ∧ dfa.Trim := by
  obtain ⟨dfa, trace, hdirect, haccepts⟩ := direct_acceptsWord hknown
  refine ⟨dfa, trace, hdirect, ?_⟩
  obtain ⟨marked, finish, _, exploration, -, rfl, hdistinct, hfinish, rfl, -, hcomplete, rfl⟩ :=
    search_of_direct hknown hdirect
  refine Dfa.trim_ofExploration hcomplete (fun _ _ _ => rfl) fun word hword => ?_
  obtain ⟨index, hwalk⟩ := hword
  obtain ⟨rest, hmem⟩ := Dfa.exists_mem_language_of_walk hdistinct hfinish rfl hcomplete hwalk
  obtain ⟨answer, hanswer, htrue⟩ := haccepts (word ++ rest)
  exact ⟨rest, by rw [hanswer, htrue.2 hmem]⟩

end Direct

namespace Regex

/-- In both automata of a tree every state is reached from the start and leads on to acceptance.  So
it lies on a run that ends in acceptance, and no state is a rejecting sink. -/
theorem constructions_trim {regex : Regex} (hknown : regex.isKnown) :
    ∃ nfa subset direct trace, Nfa.ofRegex regex = .ok nfa ∧ Dfa.ofNfa nfa none = .ok subset ∧
      regex.direct none = .ok (direct, trace) ∧
      ∀ dfa ∈ [subset, direct], dfa.Trim ∧
        (∀ index < dfa.states.size, dfa.OnAcceptingRun index) ∧
        ∀ index, ¬ dfa.RejectingSink index := by
  have hnfa := Nfa.ofRegex_eq hknown
  obtain ⟨subset, hsubset, -⟩ := Dfa.walk_ofNfa (Nfa.intact_ofRegex hknown hnfa)
  obtain ⟨direct, trace, hdirect, htrim⟩ := trim_direct hknown
  refine ⟨_, subset, direct, trace, hnfa, hsubset, hdirect, fun dfa hdfa => ?_⟩
  have hboth : dfa.Trim := by
    rcases List.mem_pair.1 hdfa with rfl | rfl
    · exact Dfa.trim_ofNfa hknown hnfa hsubset
    · exact htrim
  exact ⟨hboth, fun _ => hboth.onAcceptingRun, fun _ => hboth.not_rejectingSink⟩

/-- A character that reads nothing when the automaton is assembled, and one with the text of the end
marker. -/
def deceptive : Regex :=
  .concat (.star (.alternation (.char epsilon) (.char endMarker))) (.char "a")

theorem constructions_trim_deceptive :
    deceptive.isKnown ∧ ∃ nfa subset direct trace, Nfa.ofRegex deceptive = .ok nfa ∧
      Dfa.ofNfa nfa none = .ok subset ∧ deceptive.direct none = .ok (direct, trace) ∧
      ∀ dfa ∈ [subset, direct], dfa.Trim ∧
        (∀ index < dfa.states.size, dfa.OnAcceptingRun index) ∧
        ∀ index, ¬ dfa.RejectingSink index :=
  ⟨rfl, constructions_trim rfl⟩

end Regex
end RegexAutomata
