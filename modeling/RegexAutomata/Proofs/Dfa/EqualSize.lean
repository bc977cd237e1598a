import RegexAutomata.Proofs.Dfa.DirectImage
import RegexAutomata.Proofs.Dfa.Isomorphism
import RegexAutomata.Proofs.Dfa.Representation
import RegexAutomata.Proofs.Dfa.Trim
import RegexAutomata.Proofs.Exploration.Fresh

/-!
# Equal size is enough for isomorphism

The direct automaton of a tree is an image of the determinization.  A map of finitely many states
onto as many others is one to one, so if no two states fall together in the image, then the two
automata differ in the numbering of their states only.  The comparison is exact here, since in both
automata every target exists and every state is reached.
-/

namespace RegexAutomata

namespace Dfa

section Search

open Exploration

variable {step : List Int → String → Except Failure (Option (List Int))} {symbols : List String}
  {first : List Int} {exploration : Exploration (List Int)}
  {state : Nat → List Int → Table String Nat → State}

/-- In the automaton of a complete search every target exists, and each state lists a symbol once
at most. -/
theorem closed_ofExploration (hcomplete : Complete step symbols first exploration)
    (hsymbols : symbols.Nodup)
    (htransitions : ∀ number key table, (state number key table).transitions = table) :
    (ofExploration exploration symbols state).Closed := by
  have hrows : ∀ found ∈ (ofExploration exploration symbols state).states, ∃ key row,
      found.transitions = row.map (fun edge => (edge.symbol, edge.target)) ∧
        RowOf step exploration.found key symbols row := by
    intro found hfound
    obtain ⟨number, hnumber⟩ := Array.mem_iff_getElem?.1 hfound
    obtain ⟨key, row, -, hrowOf, rfl⟩ := exists_row_of_mem hcomplete hnumber
    exact ⟨key, row, htransitions number key _, hrowOf⟩
  have hnodup : ∀ found ∈ (ofExploration exploration symbols state).states,
      (found.transitions.map Prod.fst).Nodup := by
    intro found hfound
    obtain ⟨key, row, htable, hrowOf⟩ := hrows found hfound
    rw [htable, List.map_map]
    exact hrowOf.symbols_sublist.nodup hsymbols
  refine ⟨?_, ?_, hnodup⟩
  · intro index hindex
    rw [start_ofExploration hcomplete.first_key] at hindex
    obtain rfl := Option.some.inj hindex
    rw [size_states_ofExploration, Numbering.lt_size_iff]
    exact ⟨first, hcomplete.first_key⟩
  · rintro found hfound ⟨symbol, target⟩ hentry
    rw [← Table.value?_eq_some_iff (hnodup found hfound)] at hentry
    obtain ⟨key, row, htable, hrowOf⟩ := hrows found hfound
    rw [htable, hrowOf.value?_eq_some_iff] at hentry
    obtain ⟨-, next, -, hnext⟩ := hentry
    rw [size_states_ofExploration, Numbering.lt_size_iff]
    exact ⟨next, hnext⟩

end Search

theorem closed_ofNfa {nfa : Nfa} {dfa : Dfa} (hintact : nfa.Intact)
    (hmade : ofNfa nfa none = .ok dfa) : dfa.Closed := by
  obtain ⟨symbols, whole, first, exploration, -, -, -, -, hcomplete, hother⟩ := ofNfa_eq hintact
  have hsymbols := pairwise_alphabet (alphabet_ofNfa hother)
  obtain rfl := Except.ok.inj (hother.symm.trans hmade)
  exact closed_ofExploration hcomplete (hsymbols.imp Std.ne_of_lt) fun _ _ _ => rfl

theorem closed_direct {regex : Regex} {dfa : Dfa} {trace : List TraceStep}
    (hknown : regex.isKnown) (hmade : regex.direct none = .ok (dfa, trace)) : dfa.Closed := by
  obtain ⟨marked, finish, _, exploration, -, -, -, -, rfl, -, hcomplete, rfl⟩ :=
    Regex.search_of_direct hknown hmade
  exact closed_ofExploration hcomplete ((Ascending.pairwise_ofList _).imp Std.ne_of_lt)
    fun _ _ _ => rfl

/-- Every target exists, and every state is reached. -/
structure Reached (dfa : Dfa) : Prop where
  closed : dfa.Closed
  accessible : ∀ index < dfa.states.size, dfa.Accessible index

section Size

variable {left right source target : Dfa} {image : Nat → Nat}

theorem Reached.accessible_iff (hleft : left.Reached) {index : Nat} :
    left.Accessible index ↔ index < left.states.size :=
  ⟨hleft.closed.lt_size, hleft.accessible index⟩

theorem Reached.setOf_accessible (hleft : left.Reached) :
    {index | left.Accessible index} = ↑(Finset.range left.states.size) := by
  ext index
  rw [Set.mem_ofPred_eq, hleft.accessible_iff, Finset.mem_coe, Finset.mem_range]

theorem Isomorphism.size_eq (himage : Isomorphism left right image) (hleft : left.Reached)
    (hright : right.Reached) : left.states.size = right.states.size := by
  have hbijective := himage.bijective
  rw [hleft.setOf_accessible, hright.setOf_accessible] at hbijective
  simpa using hbijective.finsetCard_eq

theorem Homomorphism.lt_size (himage : Homomorphism source target image) {index : Nat}
    (hindex : index < source.states.size) : image index < target.states.size := by
  obtain ⟨other, hother, -⟩ := himage.accepting index _ (state?_of_lt hindex)
  exact (Array.getElem?_eq_some_iff.1 (state?_eq_ok_iff.1 hother)).1

/-- Onto as many states a homomorphism is one to one. -/
theorem Homomorphism.bijOn (himage : Homomorphism source target image)
    (hsize : source.states.size = target.states.size) :
    Set.BijOn image ↑(Finset.range source.states.size) ↑(Finset.range target.states.size) := by
  have hmaps : Set.MapsTo image ↑(Finset.range source.states.size)
      ↑(Finset.range target.states.size) := by
    intro index hindex
    rw [Finset.mem_coe, Finset.mem_range] at hindex ⊢
    exact himage.lt_size hindex
  have honto : Set.SurjOn image ↑(Finset.range source.states.size)
      ↑(Finset.range target.states.size) := by
    intro number hnumber
    rw [Finset.mem_coe, Finset.mem_range] at hnumber
    obtain ⟨index, hindex, hequal⟩ := himage.onto number hnumber
    exact ⟨index, Finset.mem_coe.2 (Finset.mem_range.2 hindex), hequal⟩
  have hcard : (Finset.range source.states.size).card ≤ (Finset.range target.states.size).card := by
    rw [hsize]
  exact ⟨hmaps, Finset.injOn_of_surjOn_of_card_le image hmaps honto hcard, honto⟩

/-- A map onto the states of an automaton of the same size takes no two states to one. -/
theorem Homomorphism.isomorphism (himage : Homomorphism source target image)
    (hsource : source.Reached) (htarget : target.Reached)
    (hsize : source.states.size = target.states.size) : Isomorphism source target image where
  bijective := by
    rw [hsource.setOf_accessible, htarget.setOf_accessible]
    exact himage.bijOn hsize
  start := by
    obtain ⟨index, -, hstart, hother⟩ := himage.start
    exact ⟨index, hstart, hother⟩
  accepting index hindex := by
    have hstate := state?_of_lt (hsource.accessible_iff.1 hindex)
    obtain ⟨other, hother, hsame⟩ := himage.accepting index _ hstate
    exact ⟨_, other, hstate, hother, hsame⟩
  next index hindex symbol := by
    have hnext := next_eq (hsource.accessible_iff.1 hindex) symbol
    exact ⟨_, hnext, himage.next index symbol _ hnext⟩

/-- Automata of which one is an image of the other are isomorphic if they are of one size. -/
theorem Homomorphism.isomorphic_iff (himage : Homomorphism source target image)
    (hsource : source.Reached) (htarget : target.Reached) :
    Isomorphic source target ↔ source.states.size = target.states.size := by
  obtain ⟨first, -, hstart, hother⟩ := himage.start
  have hfilled : ¬ source.isEmpty := by
    rw [isEmpty, hstart]
    exact Bool.false_ne_true
  have hotherFilled : ¬ target.isEmpty := by
    rw [isEmpty, hother]
    exact Bool.false_ne_true
  constructor
  · rintro (⟨hnone, -⟩ | ⟨-, -, other, hisomorphism⟩)
    · exact absurd hnone hfilled
    · exact hisomorphism.size_eq hsource htarget
  · intro hsize
    exact Or.inr ⟨hfilled, hotherFilled, image, himage.isomorphism hsource htarget hsize⟩

end Size

end Dfa

namespace Regex

/-- The determinization and the direct automaton of a tree differ in the numbering of their states
only if they are of one size.  Otherwise the direct automaton is smaller. -/
theorem isIsomorphic_iff_size_eq {regex : Regex} (hknown : regex.isKnown)
    (hvalues : epsilon ∉ regex.values) :
    ∃ nfa subset direct trace, Nfa.ofRegex regex = .ok nfa ∧ Dfa.ofNfa nfa none = .ok subset ∧
      regex.direct none = .ok (direct, trace) ∧
      (subset.isIsomorphic direct = .ok true ↔ subset.states.size = direct.states.size) ∧
      (subset.isIsomorphic direct = .ok false ↔ direct.states.size < subset.states.size) := by
  obtain ⟨direct, trace, hdirect, htrim⟩ := trim_direct hknown
  obtain ⟨marked, finish, hmarked, rfl, hpositions, hfinish⟩ := marked_eq hknown
  have hnfa := Nfa.ofRegex_eq hknown
  obtain ⟨subset, other, steps, image, hsubset, hother, himage⟩ := Dfa.exists_homomorphism
    (MarkedRegex.distinct_of_consecutive hpositions) hfinish hvalues hnfa
  have hsame : marked.unmarked.direct none = .ok (other, steps) :=
    (Regex.direct_of_marked hmarked none).trans hother
  obtain ⟨rfl, rfl⟩ := Prod.mk.inj (Except.ok.inj (hsame.symm.trans hdirect))
  have hsource : subset.Reached :=
    ⟨Dfa.closed_ofNfa (Nfa.intact_ofRegex hknown hnfa) hsubset,
      (Dfa.trim_ofNfa hknown hnfa hsubset).accessible⟩
  have htarget : other.Reached := ⟨Dfa.closed_direct hknown hdirect, htrim.accessible⟩
  have hsize := himage.isomorphic_iff hsource htarget
  have hless := himage.size_le
  refine ⟨_, subset, other, steps, hnfa, hsubset, hdirect, ?_⟩
  rcases Dfa.isIsomorphic_spec hsource.closed htarget.closed with
    ⟨hanswer, hisomorphic⟩ | ⟨hanswer, hdiffer⟩
  · rw [hsize] at hisomorphic
    simp [hanswer, hisomorphic]
  · rw [hsize] at hdiffer
    have hsmaller := Nat.lt_of_le_of_ne hless (Ne.symm hdiffer)
    simp [hanswer, hdiffer, hsmaller]

def sizes (regex : Regex) : Except Failure (Nat × Nat) := do
  let subset ← Dfa.ofNfa (← Nfa.ofRegex regex) none
  let (direct, _) ← regex.direct none
  return (subset.states.size, direct.states.size)

theorem sizes_eq {regex : Regex} {nfa : Nfa} {subset direct : Dfa} {trace : List TraceStep}
    (hnfa : Nfa.ofRegex regex = .ok nfa) (hsubset : Dfa.ofNfa nfa none = .ok subset)
    (hdirect : regex.direct none = .ok (direct, trace)) :
    regex.sizes = .ok (subset.states.size, direct.states.size) := by
  simp only [sizes, hnfa, hsubset, hdirect, bind, Except.bind, pure, Except.pure]

/-- Where an end is repeated two states fall together, and in a row of characters none do. -/
theorem isIsomorphic_iff_size_eq_endingTwice :
    (endingTwice.isKnown ∧ epsilon ∉ endingTwice.values ∧
      ∃ nfa subset direct trace, Nfa.ofRegex endingTwice = .ok nfa ∧
        Dfa.ofNfa nfa none = .ok subset ∧ endingTwice.direct none = .ok (direct, trace) ∧
        subset.isIsomorphic direct = .ok false) ∧
    ∃ nfa subset direct trace, Nfa.ofRegex (.concat (.char "a") (.char "b")) = .ok nfa ∧
      Dfa.ofNfa nfa none = .ok subset ∧
      (Regex.concat (.char "a") (.char "b")).direct none = .ok (direct, trace) ∧
      subset.isIsomorphic direct = .ok true := by
  have hsizes : sizes endingTwice = .ok (5, 4) := by decide +kernel
  have hequal : sizes (.concat (.char "a") (.char "b")) = .ok (3, 3) := by decide +kernel
  constructor
  · obtain ⟨nfa, subset, direct, trace, hnfa, hsubset, hdirect, -, hless⟩ :=
      @isIsomorphic_iff_size_eq endingTwice rfl (by decide)
    refine ⟨rfl, by decide, nfa, subset, direct, trace, hnfa, hsubset, hdirect, hless.2 ?_⟩
    rw [sizes_eq hnfa hsubset hdirect, Except.ok.injEq, Prod.mk.injEq] at hsizes
    omega
  · obtain ⟨nfa, subset, direct, trace, hnfa, hsubset, hdirect, hsame, -⟩ :=
      @isIsomorphic_iff_size_eq (.concat (.char "a") (.char "b")) rfl (by decide)
    refine ⟨nfa, subset, direct, trace, hnfa, hsubset, hdirect, hsame.2 ?_⟩
    rw [sizes_eq hnfa hsubset hdirect, Except.ok.injEq, Prod.mk.injEq] at hequal
    omega

end Regex
end RegexAutomata
