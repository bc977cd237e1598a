import RegexAutomata.Proofs.Dfa.Constructed
import RegexAutomata.Proofs.Exploration.Fresh

/-!
# What constructed automata look like

Both constructions are searches through ascending lists of numbers, and the automaton has one state
for each list.  So its states are numbered by their place, its transitions stay within the alphabet
and the states, and no two states stand for the same set.
-/

namespace RegexAutomata

open Exploration

namespace Dfa

/-- The automaton is what a construction is to make: it has its states by number, from the start on,
and all transitions are within its alphabet and its states.  Each state carries a set as its key,
which no other state has and which decides whether the state accepts. -/
structure Represents (dfa : Dfa) (key? : State → Option (List Int)) (accepts : Int → Prop) :
    Prop where
  start_eq : dfa.start = some 0
  start_lt : 0 < dfa.states.size
  alphabet_ascending : dfa.alphabet.Pairwise (· < ·)
  id_eq : ∀ (number : Nat) (state : State), dfa.states[number]? = some state → state.id = number
  symbols_nodup : ∀ state ∈ dfa.states, (state.transitions.map Prod.fst).Nodup
  symbol_mem : ∀ state ∈ dfa.states, ∀ symbol target, (symbol, target) ∈ state.transitions →
    symbol ∈ dfa.alphabet
  target_lt : ∀ state ∈ dfa.states, ∀ symbol target, (symbol, target) ∈ state.transitions →
    target < dfa.states.size
  exists_key : ∀ state ∈ dfa.states, ∃ key, key? state = some key ∧ key ≠ [] ∧
    key.Pairwise (· < ·) ∧ (state.accepting = true ↔ ∃ member ∈ key, accepts member)
  key_injective : ∀ (left right : Nat) (leftState rightState : State),
    dfa.states[left]? = some leftState → dfa.states[right]? = some rightState →
      key? leftState = key? rightState → left = right

/-- An automaton is made of states that say of themselves what a construction tells them: their
number, their key, where they lead, and whether the key has an accepting member. -/
structure Faithful (state : Nat → List Int → Table String Nat → State)
    (key? : State → Option (List Int)) (accepts : Int → Prop) : Prop where
  id_eq : ∀ number key table, (state number key table).id = number
  transitions_eq : ∀ number key table, (state number key table).transitions = table
  key_eq : ∀ number key table, key? (state number key table) = some key
  accepting_iff : ∀ number key table,
    (state number key table).accepting = true ↔ ∃ member ∈ key, accepts member

section Search

variable {step : List Int → String → Except Failure (Option (List Int))} {symbols : List String}
  {relation : Int → String → Int → Prop} {whole : Finset Int} {first : List Int}
  {exploration : Exploration (List Int)} {state : Nat → List Int → Table String Nat → State}
  {key? : State → Option (List Int)} {accepts : Int → Prop}

/-- A state of the automaton is made from a key and from a row of edges that leave it. -/
theorem exists_row_of_mem (hcomplete : Complete step symbols first exploration) {number : Nat}
    {made : State}
    (hmade : (ofExploration exploration symbols state).states[number]? = some made) :
    ∃ key row, exploration.found.key? number = some key ∧
      RowOf step exploration.found key symbols row ∧
      made = state number key (row.map fun edge => (edge.symbol, edge.target)) := by
  rw [getElem?_states_ofExploration, Option.map_eq_some_iff] at hmade
  obtain ⟨key, hkey, rfl⟩ := hmade
  obtain ⟨row, hrow, hrowOf⟩ := hcomplete.exists_row hkey
  exact ⟨key, row, hkey, hrowOf, by rw [hrow, Option.getD_some]⟩

/-- The automaton of a complete search through sets represents these sets. -/
theorem represents_ofExploration (hcollects : Collects step symbols relation whole)
    (hfirst : first.Pairwise (· < ·)) (hwithin : ∀ id ∈ first, id ∈ whole) (hnonempty : first ≠ [])
    (hcomplete : Complete step symbols first exploration) (hsymbols : symbols.Pairwise (· < ·))
    (hfaithful : Faithful state key? accepts) :
    (ofExploration exploration symbols state).Represents key? accepts := by
  have hmem : ∀ {made : State}, made ∈ (ofExploration exploration symbols state).states →
      ∃ number key row, exploration.found.key? number = some key ∧
        RowOf step exploration.found key symbols row ∧
        made = state number key (row.map fun edge => (edge.symbol, edge.target)) := by
    intro made hmade
    obtain ⟨number, hnumber⟩ := Array.mem_iff_getElem?.1 hmade
    exact ⟨number, exists_row_of_mem hcomplete hnumber⟩
  have hnodup : ∀ {key : List Int} {row : List Discovery},
      RowOf step exploration.found key symbols row →
        ((row.map fun edge => (edge.symbol, edge.target)).map Prod.fst).Nodup := by
    intro key row hrow
    rw [List.map_map]
    exact (hsymbols.imp fun hless => Std.ne_of_lt hless).sublist hrow.symbols_sublist
  have hentry : ∀ made ∈ (ofExploration exploration symbols state).states, ∀ symbol target,
      (symbol, target) ∈ made.transitions →
        symbol ∈ symbols ∧ target < exploration.found.size := by
    intro made hmade symbol target htarget
    obtain ⟨number, key, row, -, hrow, rfl⟩ := hmem hmade
    rw [hfaithful.transitions_eq, ← Table.value?_eq_some_iff (hnodup hrow),
      hrow.value?_eq_some_iff] at htarget
    obtain ⟨hsymbol, next, -, hnext⟩ := htarget
    exact ⟨hsymbol, Numbering.lt_size_iff.2 ⟨next, hnext⟩⟩
  constructor
  case start_eq => exact start_ofExploration hcomplete.first_key
  case start_lt =>
    rw [size_states_ofExploration, Numbering.lt_size_iff]
    exact ⟨first, hcomplete.first_key⟩
  case alphabet_ascending => exact hsymbols
  case id_eq =>
    intro number made hmade
    obtain ⟨key, row, -, -, rfl⟩ := exists_row_of_mem hcomplete hmade
    exact hfaithful.id_eq number key _
  case symbols_nodup =>
    intro made hmade
    obtain ⟨number, key, row, -, hrow, rfl⟩ := hmem hmade
    rw [hfaithful.transitions_eq]
    exact hnodup hrow
  case symbol_mem =>
    exact fun made hmade symbol target htarget => (hentry made hmade symbol target htarget).1
  case target_lt =>
    intro made hmade symbol target htarget
    rw [size_states_ofExploration]
    exact (hentry made hmade symbol target htarget).2
  case exists_key =>
    intro made hmade
    obtain ⟨number, key, row, hkey, -, rfl⟩ := hmem hmade
    have hreachable := hcomplete.sound number key hkey
    exact ⟨key, hfaithful.key_eq number key _,
      hcollects.ne_nil_of_reachable hfirst hwithin hnonempty hreachable,
      (hcollects.of_reachable hfirst hwithin hreachable).1, hfaithful.accepting_iff number key _⟩
  case key_injective =>
    intro left right leftState rightState hleft hright hsame
    obtain ⟨leftKey, _, hleftKey, -, rfl⟩ := exists_row_of_mem hcomplete hleft
    obtain ⟨rightKey, _, hrightKey, -, rfl⟩ := exists_row_of_mem hcomplete hright
    rw [hfaithful.key_eq, hfaithful.key_eq] at hsame
    obtain rfl := Option.some.inj hsame
    exact Numbering.key?_injective hleftKey hrightKey

end Search

theorem faithful_subsetState (nfa : Nfa) :
    Faithful (subsetState nfa) State.nfaStates (nfa.isAccepting · = true) where
  id_eq _ _ _ := rfl
  transitions_eq _ _ _ := rfl
  key_eq _ _ _ := rfl
  accepting_iff _ _ _ := List.any_eq_true

theorem faithful_stateOf (table : FollowTable) :
    Faithful table.stateOf State.positions (· = table.endPosition) where
  id_eq _ _ _ := rfl
  transitions_eq _ _ _ := rfl
  key_eq _ _ _ := rfl
  accepting_iff _ key _ := by
    rw [FollowTable.stateOf, List.contains_iff_mem]
    simp only [exists_eq_right]

/-- The symbols of reachable edges stand in ascending order. -/
theorem pairwise_alphabet {nfa : Nfa} {symbols : List String}
    (hsymbols : nfa.alphabet = .ok symbols) : symbols.Pairwise (· < ·) := by
  obtain ⟨reached, -, hrest⟩ := Traversal.bind_eq_ok_iff.1 hsymbols
  obtain ⟨states, -, hresult⟩ := Traversal.bind_eq_ok_iff.1 hrest
  cases hresult
  exact Ascending.pairwise_ofList _

/-- The determinization of an automaton whose edges lead to no stray states represents its sets of
states, and the direct construction from a tree of known nodes represents its sets of positions. -/
theorem represents_constructed :
    (∀ nfa : Nfa, nfa.Intact → ∃ dfa, ofNfa nfa none = .ok dfa ∧
      dfa.Represents State.nfaStates (nfa.isAccepting · = true)) ∧
    ∀ regex : Regex, regex.isKnown → ∃ dfa trace root, regex.direct none = .ok (dfa, trace) ∧
      regex.marked = .ok root ∧
      dfa.Represents State.positions (· = (FollowTable.ofMarked root).endPosition) := by
  constructor
  · intro nfa hintact
    obtain ⟨symbols, whole, first, exploration, hcollects, hascending, hwithin, hmem, hcomplete,
      hmade⟩ := ofNfa_eq hintact
    have hnonempty : first ≠ [] := List.ne_nil_of_mem ((hmem nfa.start).2 (.nil _))
    exact ⟨_, hmade, represents_ofExploration hcollects hascending hwithin hnonempty hcomplete
      (pairwise_alphabet (alphabet_ofNfa hmade)) (faithful_subsetState nfa)⟩
  · intro regex hknown
    obtain ⟨marked, finish, hmarked, rfl, hpositions, hfinish⟩ := Regex.marked_eq hknown
    have hdistinct := MarkedRegex.distinct_of_consecutive hpositions
    obtain ⟨exploration, trace, hcomplete, hdirect⟩ :=
      FollowTable.direct_ofMarked hdistinct hfinish rfl
    refine ⟨_, trace, _, ?_, hmarked, represents_ofExploration
      (FollowTable.collects_ofMarked hdistinct hfinish) (marked.ended finish).ascending_first
      (marked.ended finish).first_within (MarkedRegex.first_ne_nil _) hcomplete
      (Ascending.pairwise_ofList _) (faithful_stateOf _)⟩
    exact (Regex.direct_of_marked hmarked none).trans hdirect

theorem represents_constructed_circle :
    (∃ dfa, ofNfa circleNfa none = .ok dfa ∧
      dfa.Represents State.nfaStates (circleNfa.isAccepting · = true)) ∧
    ∃ dfa trace root, (Regex.star (.char "#")).direct none = .ok (dfa, trace) ∧
      (Regex.star (.char "#")).marked = .ok root ∧
      dfa.Represents State.positions (· = (FollowTable.ofMarked root).endPosition) :=
  ⟨represents_constructed.1 circleNfa (Nfa.intact_of_targets (by decide) (by decide)),
    represents_constructed.2 (.star (.char "#")) rfl⟩

end Dfa
end RegexAutomata
