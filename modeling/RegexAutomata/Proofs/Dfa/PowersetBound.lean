import Mathlib.Data.Int.Interval
import RegexAutomata.Proofs.Dfa.Determinization
import RegexAutomata.Proofs.Dfa.Direct
import RegexAutomata.Proofs.Exploration.Queue

/-!
# Constructions end within the bound of subsets

Both constructions are loops that add to their own worklist.  Fuel left aside, these loops come to
an end, and so do the searches for the alphabet and for closures inside them, whatever circles there
are.  Each state of the result has been expanded once.  The states stand for different sets, none of
them empty, so there are fewer states than sets.  A state that is also named from the end stands in
these sets under two numbers; the bound is for states that are counted from the front.
-/

namespace RegexAutomata

open Exploration

namespace Nfa

variable {nfa : Nfa}

theorem searchSettles_allTargets (hintact : nfa.Intact) :
    nfa.SearchSettles State.allTargets [nfa.start] := by
  refine searchSettles State.nodup_allTargets fun first hfirst id hreaches => hintact id ?_
  rw [List.mem_singleton.1 hfirst] at hreaches
  exact reaches_allTargets_iff.1 hreaches

theorem searchSettles_silent (hintact : nfa.Intact) {ids : List StateNumber}
    (hids : ∀ id ∈ ids, nfa.Reachable id) :
    nfa.SearchSettles (fun state => state.targets epsilon) ids := by
  refine searchSettles (fun state => Ascending.nodup_of_pairwise (state.ascending_of_symbol _)) ?_
  intro first hfirst id hreaches
  exact hintact id ((hids first hfirst).path (path_nil_iff.2 hreaches))

/-- If states are counted from the front only, there are no more numbers in use than states. -/
theorem card_le_size (hintact : nfa.Intact) (hfront : ∀ id, nfa.Reachable id → 0 ≤ id)
    {whole : Finset Int} (hwhole : ∀ id, id ∈ whole ↔ nfa.Reachable id) :
    whole.card ≤ nfa.states.size := by
  have hsubset : whole ⊆ Finset.Ico 0 (nfa.states.size : Int) := by
    intro id hid
    have hreachable := (hwhole id).1 hid
    exact Finset.mem_Ico.2 ⟨hfront id hreachable, (exists_iff.1 (hintact id hreachable)).2⟩
  calc whole.card
      ≤ (Finset.Ico 0 (nfa.states.size : Int)).card := Finset.card_le_card hsubset
    _ = nfa.states.size := by rw [Int.card_Ico, Int.sub_zero, Int.toNat_natCast]

end Nfa

namespace Dfa

/-- The automaton is what a loop through sets has found in the end, when its queue is empty.  It has
one state for each of these sets, in this order, and each of them is expanded once. -/
def MadeByLoop (dfa : Dfa) (state : Nat → List Int → Table String Nat → State)
    (key? : State → Option (List Int))
    (step : List Int → String → Except Failure (Option (List Int))) (symbols : List String)
    (first : List Int) : Prop :=
  ∃ final, ExpandsEachOnce step symbols first final ∧ EmptiesQueue step symbols first final ∧
    dfa = ofExploration final symbols state ∧
    dfa.states.toList.map key? = final.found.keys.toList.map some

theorem madeByLoop_ofExploration {step : List Int → String → Except Failure (Option (List Int))}
    {symbols : List String} {first : List Int} {exploration : Exploration (List Int)} {fuel : Nat}
    {state : Nat → List Int → Table String Nat → State} {key? : State → Option (List Int)}
    (hrun : run step none symbols fuel first = .ok exploration)
    (hcomplete : Complete step symbols first exploration)
    (hkey : ∀ number key table, key? (state number key table) = some key) :
    (ofExploration exploration symbols state).MadeByLoop state key? step symbols first := by
  refine ⟨exploration, expandsEachOnce_run hrun hcomplete, emptiesQueue_run hrun hcomplete, rfl, ?_⟩
  apply List.ext_getElem?
  intro number
  rw [List.getElem?_map, List.getElem?_map, Array.getElem?_toList, Array.getElem?_toList,
    getElem?_states_ofExploration, Option.map_map, Numbering.key?]
  exact congrArg (Option.map · _) (funext fun key => hkey _ key _)

/-- The determinization ends within the bound of the subsets of the states, provided that the states
are counted from the front only. -/
theorem madeByLoop_ofNfa {nfa : Nfa} (hintact : nfa.Intact) :
    ∃ symbols first dfa, nfa.alphabet = .ok symbols ∧ nfa.closure [nfa.start] = .ok first ∧
      ofNfa nfa none = .ok dfa ∧
      dfa.MadeByLoop (subsetState nfa) State.nfaStates nfa.step symbols first ∧
      ((∀ id, nfa.Reachable id → 0 ≤ id) → dfa.states.size ≤ 2 ^ nfa.states.size - 1) := by
  obtain ⟨symbols, whole, first, exploration, hsymbols, hfirst, hwhole, hcollects, hascending,
    hwithin, hmem, hrun, hcomplete⟩ := search_ofNfa hintact
  refine ⟨symbols, first, _, hsymbols, hfirst, ofNfa_of_run hsymbols hfirst hrun,
    madeByLoop_ofExploration hrun hcomplete fun _ _ _ => rfl, fun hfront => ?_⟩
  have hnonempty : first ≠ [] := List.ne_nil_of_mem ((hmem nfa.start).2 (.nil _))
  rw [size_states_ofExploration]
  apply Nat.le_sub_one_of_lt
  calc exploration.found.size
      < 2 ^ whole.card := hcollects.size_lt hascending hwithin hnonempty hcomplete.toExploring
    _ ≤ 2 ^ nfa.states.size :=
        Nat.pow_le_pow_right (by decide) (Nfa.card_le_size hintact hfront hwhole)

end Dfa

/-- There are as many positions as characters, and that of the end marker. -/
theorem MarkedRegex.card_positions_le (marked : MarkedRegex) (finish : Position) :
    (marked.ended finish).positions.toFinset.card ≤ marked.unmarked.values.length + 1 := by
  refine Nat.le_trans (List.toFinset_card_le _) (Nat.le_of_eq ?_)
  simp [positions, values_unmarked, ended, leaves]

/-- The direct construction ends within the bound of the subsets of the positions. -/
theorem Regex.madeByLoop_direct {regex : Regex} (hknown : regex.isKnown) :
    ∃ marked dfa trace, regex.marked = .ok marked ∧ regex.direct none = .ok (dfa, trace) ∧
      dfa.MadeByLoop (FollowTable.ofMarked marked).stateOf Dfa.State.positions
        (FollowTable.ofMarked marked).step (FollowTable.ofMarked marked).alphabet
        (FollowTable.ofMarked marked).first ∧
      (FollowTable.ofMarked marked).EmptiesQueue dfa trace ∧
      dfa.states.size ≤ 2 ^ (regex.values.length + 1) - 1 := by
  obtain ⟨dfa, trace, hmade, -⟩ := direct_acceptsWord hknown
  obtain ⟨marked, finish, _, exploration, hmarked, rfl, hdistinct, hfinish, rfl, hrun, hcomplete,
    rfl⟩ := search_of_direct hknown hmade
  refine ⟨_, _, trace, hmarked, hmade,
    Dfa.madeByLoop_ofExploration hrun hcomplete fun _ _ _ => rfl,
    FollowTable.emptiesQueue_direct (MarkedRegex.first_ne_nil _) hrun hcomplete
      ((direct_of_marked hmarked none).symm.trans hmade), ?_⟩
  have hcollects := FollowTable.collects_ofMarked hdistinct hfinish
  rw [Dfa.size_states_ofExploration]
  apply Nat.le_sub_one_of_lt
  calc exploration.found.size
      < 2 ^ (marked.ended finish).positions.toFinset.card :=
        hcollects.size_lt (MarkedRegex.ascending_first _) (MarkedRegex.first_within _)
          (MarkedRegex.first_ne_nil _) hcomplete.toExploring
    _ ≤ 2 ^ (marked.unmarked.values.length + 1) :=
        Nat.pow_le_pow_right (by decide) (marked.card_positions_le finish)

/-- Without a limit both constructions come to an end.  For an automaton in which edges lead only to
states that exist, the search for the alphabet and the search for every closure end, and so does the
loop through the sets of states.  For a tree of known nodes the loop through the sets of positions
ends.  Their queues are empty then.  All states are expanded once, and there are fewer of them than
sets; for sets of states this asks that edges name a state by its place and not by its distance from
the end as well. -/
theorem constructions_end :
    (∀ nfa : Nfa, nfa.Intact →
      nfa.SearchSettles Nfa.State.allTargets [nfa.start] ∧
      (∀ ids, (∀ id ∈ ids, nfa.Reachable id) →
        nfa.SearchSettles (fun state => state.targets epsilon) ids) ∧
      ∃ symbols first dfa, nfa.alphabet = .ok symbols ∧ nfa.closure [nfa.start] = .ok first ∧
        Dfa.ofNfa nfa none = .ok dfa ∧
        dfa.MadeByLoop (Dfa.subsetState nfa) Dfa.State.nfaStates nfa.step symbols first ∧
        ((∀ id, nfa.Reachable id → 0 ≤ id) → dfa.states.size ≤ 2 ^ nfa.states.size - 1)) ∧
    ∀ regex : Regex, regex.isKnown → ∃ marked dfa trace, regex.marked = .ok marked ∧
      regex.direct none = .ok (dfa, trace) ∧
      dfa.MadeByLoop (FollowTable.ofMarked marked).stateOf Dfa.State.positions
        (FollowTable.ofMarked marked).step (FollowTable.ofMarked marked).alphabet
        (FollowTable.ofMarked marked).first ∧
      (FollowTable.ofMarked marked).EmptiesQueue dfa trace ∧
      dfa.states.size ≤ 2 ^ (regex.values.length + 1) - 1 := by
  constructor
  · intro nfa hintact
    exact ⟨Nfa.searchSettles_allTargets hintact, fun ids => Nfa.searchSettles_silent hintact,
      Dfa.madeByLoop_ofNfa hintact⟩
  · intro regex hknown
    exact Regex.madeByLoop_direct hknown

theorem constructions_end_circle :
    Dfa.circleNfa.Intact ∧ (∀ id, Dfa.circleNfa.Reachable id → 0 ≤ id) ∧
      (∃ symbols first dfa, Dfa.circleNfa.alphabet = .ok symbols ∧
        Dfa.circleNfa.closure [0] = .ok first ∧ Dfa.ofNfa Dfa.circleNfa none = .ok dfa ∧
        dfa.MadeByLoop (Dfa.subsetState Dfa.circleNfa) Dfa.State.nfaStates Dfa.circleNfa.step
          symbols first ∧
        dfa.states.size ≤ 2 ^ 5 - 1) ∧
      (Regex.star (.char Regex.endMarker)).isKnown ∧
      ∃ dfa trace, (Regex.star (.char Regex.endMarker)).direct none = .ok (dfa, trace) ∧
        dfa.states.size ≤ 2 ^ (1 + 1) - 1 := by
  have hintact : Dfa.circleNfa.Intact := Nfa.intact_of_targets (by decide) (by decide)
  have hfront : ∀ id, Dfa.circleNfa.Reachable id → 0 ≤ id :=
    Nfa.forall_reachable (by decide) (by decide)
  obtain ⟨-, -, symbols, first, dfa, hsymbols, hfirst, hmade, hloop, hbound⟩ :=
    constructions_end.1 Dfa.circleNfa hintact
  obtain ⟨marked, direct, trace, -, hdirect, -, -, hsize⟩ :=
    constructions_end.2 (.star (.char Regex.endMarker)) rfl
  exact ⟨hintact, hfront, ⟨symbols, first, dfa, hsymbols, hfirst, hmade, hloop, hbound hfront⟩, rfl,
    direct, trace, hdirect, hsize⟩

end RegexAutomata
