import Mathlib.Data.List.Shortlex
import RegexAutomata.Proofs.Dfa.Limit
import RegexAutomata.Proofs.Dfa.Representation
import RegexAutomata.Proofs.Exploration.Discovery

/-!
# States in the order of their access words

Words are compared by length, and those of one length symbol by symbol.  The access word of a state
is the least word that leads to it.  Both constructions number their states in the order of their
access words: each state is discovered from a state before it, and the access word of the one is
that of the other and one symbol more.
-/

namespace RegexAutomata

open Exploration

/-- The left word is shorter, or they are of one length and the symbol is less at which they first
differ. -/
abbrev Precedes : List String → List String → Prop :=
  List.Shortlex (· < ·)

theorem Precedes.snoc {left right : List String} (hless : Precedes left right)
    (first second : String) : Precedes (left ++ [first]) (right ++ [second]) := by
  rcases List.shortlex_def.1 hless with hlength | ⟨hlength, hlex⟩
  · exact .of_length_lt (by simpa using hlength)
  · refine .of_lex (by simpa using hlength) ?_
    clear hless
    induction hlex with
    | nil => simp at hlength
    | cons _ ih => exact .cons (ih (by simpa using hlength))
    | rel hless => exact .rel hless

namespace Dfa

/-- A word leads to a state and precedes all others that do. -/
def IsAccessWord (dfa : Dfa) (index : Nat) (word : List String) : Prop :=
  dfa.walk word = .ok (some index) ∧
    ∀ other, dfa.walk other = .ok (some index) → other = word ∨ Precedes word other

/-- Every state has an access word, and the states are numbered in the order of these words. -/
structure Canonical (dfa : Dfa) : Prop where
  exists_word : ∀ index < dfa.states.size, ∃ word, dfa.IsAccessWord index word
  precedes : ∀ left right leftWord rightWord, left < right → right < dfa.states.size →
    dfa.IsAccessWord left leftWord → dfa.IsAccessWord right rightWord →
      Precedes leftWord rightWord

/-- Every state but the start has a transition to it from a state before it.  Any transition to this
state or to a later one leaves a later state, or the same one with a symbol that is not less. -/
structure BreadthFirst (dfa : Dfa) : Prop where
  start_eq : dfa.start = some 0
  exists_discovery : ∀ number < dfa.states.size, 0 < number → ∃ source symbol,
    source < number ∧ dfa.next source symbol = .ok (some number) ∧
      ∀ other label target, dfa.next other label = .ok (some target) → number ≤ target →
        source < other ∨ source = other ∧ (symbol = label ∨ symbol < label)

section Walk

variable {dfa : Dfa} {index target : Nat} {word : List String} {symbol : String}

/-- The last symbol of a word leads on from where the word before it ends. -/
theorem walkFrom_snoc_iff :
    dfa.walkFrom index (word ++ [symbol]) = .ok (some target) ↔
      ∃ middle, dfa.walkFrom index word = .ok (some middle) ∧
        dfa.next middle symbol = .ok (some target) := by
  have hone : ∀ middle, dfa.walkFrom middle [symbol] = dfa.next middle symbol := by
    intro middle
    rw [walkFrom]
    rcases dfa.next middle symbol with failure | _ | final <;> rfl
  constructor
  · intro hwalk
    induction word generalizing index with
    | nil => exact ⟨index, rfl, (hone index).symm.trans hwalk⟩
    | cons first rest ih =>
      rw [List.cons_append, walkFrom, Traversal.bind_eq_ok_iff] at hwalk
      obtain ⟨next, hnext, hrest⟩ := hwalk
      cases next with
      | none => cases hrest
      | some next =>
        obtain ⟨middle, hmiddle, hlast⟩ := ih hrest
        exact ⟨middle, by rw [walkFrom, hnext]; exact hmiddle, hlast⟩
  · rintro ⟨middle, hmiddle, hlast⟩
    rw [walkFrom_append hmiddle, hone, hlast]

theorem walk_snoc_iff :
    dfa.walk (word ++ [symbol]) = .ok (some target) ↔
      ∃ middle, dfa.walk word = .ok (some middle) ∧ dfa.next middle symbol = .ok (some target) := by
  unfold walk
  cases dfa.start with
  | none => simp
  | some start => exact walkFrom_snoc_iff

end Walk

section Order

variable {dfa : Dfa} {index : Nat}

/-- The least word that leads to a state also precedes the words that lead to later states. -/
theorem BreadthFirst.exists_least (hbreadth : dfa.BreadthFirst) (hindex : index < dfa.states.size) :
    ∃ word, dfa.walk word = .ok (some index) ∧
      ∀ later other, index ≤ later → dfa.walk other = .ok (some later) →
        other = word ∨ Precedes word other := by
  induction index using Nat.strongRecOn with
  | ind index ih =>
    rcases Nat.eq_zero_or_pos index with rfl | hpositive
    · refine ⟨[], by rw [walk, hbreadth.start_eq]; rfl, fun later other _ _ => ?_⟩
      exact (List.shortlex_nil_or_eq_nil other).symm
    · obtain ⟨source, symbol, hsource, hnext, hfirst⟩ :=
        hbreadth.exists_discovery index hindex hpositive
      obtain ⟨word, hword, hleast⟩ := ih source hsource (hsource.trans hindex)
      refine ⟨word ++ [symbol], walk_snoc_iff.2 ⟨source, hword, hnext⟩,
        fun later other hlater hwalk => ?_⟩
      rcases List.eq_nil_or_concat other with rfl | ⟨before, label, rfl⟩
      · rw [walk, hbreadth.start_eq] at hwalk
        cases hwalk
        omega
      · rw [List.concat_eq_append] at hwalk ⊢
        obtain ⟨middle, hbefore, hlast⟩ := walk_snoc_iff.1 hwalk
        have horder := hfirst middle label later hlast hlater
        rcases hleast middle before (by omega) hbefore with rfl | hless
        · -- the same word leads to one state only, so that the last symbols decide
          obtain rfl : source = middle :=
            Option.some.inj (Except.ok.inj (hword.symm.trans hbefore))
          rcases horder with himpossible | ⟨-, rfl | hsymbol⟩
          · exact absurd himpossible (Nat.lt_irrefl _)
          · exact Or.inl rfl
          · exact Or.inr (((List.shortlex_singleton_iff _ _).2 hsymbol).append_left before)
        · exact Or.inr (hless.snoc symbol label)

/-- States that are numbered breadth first have access words, in the order of their numbers. -/
theorem BreadthFirst.canonical (hbreadth : dfa.BreadthFirst) : dfa.Canonical where
  exists_word index hindex := by
    obtain ⟨word, hword, hleast⟩ := hbreadth.exists_least hindex
    exact ⟨word, hword, fun other => hleast index other (Nat.le_refl _)⟩
  precedes left right leftWord rightWord hless hright hleftWord hrightWord := by
    obtain ⟨word, hword, hleast⟩ := hbreadth.exists_least (hless.trans hright)
    obtain rfl : word = leftWord := by
      rcases hleftWord.2 word hword with hsame | hbefore
      · exact hsame
      · rcases hleast left leftWord (Nat.le_refl _) hleftWord.1 with hsame | hafter
        · exact hsame.symm
        · exact absurd hbefore (Std.Asymm.asymm _ _ hafter)
    rcases hleast right rightWord (Nat.le_of_lt hless) hrightWord.1 with rfl | hprecedes
    · have hsame := hword.symm.trans hrightWord.1
      rw [Except.ok.injEq, Option.some.injEq] at hsame
      omega
    · exact hprecedes

end Order

section Search

variable {κ : Type} [Ord κ] {exploration : Exploration κ} {symbols : List String}
  {state : Nat → κ → Table String Nat → State} {step : κ → String → Except Failure (Option κ)}
  {first : κ}

/-- The transitions of the automaton are the edges of the search. -/
theorem next_eq_some_iff_mem_arrows (hcomplete : Complete step symbols first exploration)
    (hsymbols : symbols.Pairwise (· < ·))
    (hstate : ∀ number key table, (state number key table).transitions = table)
    {source target : Nat} {symbol : String} :
    (ofExploration exploration symbols state).next source symbol = .ok (some target) ↔
      ∃ fresh, (source, ⟨symbol, target, fresh⟩) ∈ exploration.arrows := by
  have hrows : ∀ {key : κ} {row : List Discovery}, RowOf step exploration.found key symbols row →
      (Table.value? symbol (row.map fun edge => (edge.symbol, edge.target)) = some target ↔
        ∃ fresh, (⟨symbol, target, fresh⟩ : Discovery) ∈ row) := by
    intro key row hrow
    have hnodup : ((row.map fun edge => (edge.symbol, edge.target)).map Prod.fst).Nodup := by
      rw [List.map_map]
      exact (hsymbols.imp fun hless => Std.ne_of_lt hless).sublist hrow.symbols_sublist
    rw [Table.value?_eq_some_iff hnodup, List.mem_map]
    constructor
    · rintro ⟨⟨label, number, fresh⟩, hedge, hsame⟩
      cases hsame
      exact ⟨fresh, hedge⟩
    · rintro ⟨fresh, hedge⟩
      exact ⟨_, hedge, rfl⟩
  rw [next, Traversal.bind_eq_ok_iff]
  simp only [state?_eq_ok_iff, getElem?_states_ofExploration, mem_arrows, pure, Except.pure,
    Except.ok.injEq, Option.map_eq_some_iff]
  constructor
  · rintro ⟨_, ⟨key, hkey, rfl⟩, hvalue⟩
    obtain ⟨row, hrow, hrowOf⟩ := hcomplete.exists_row hkey
    rw [hstate, hrow, Option.getD_some, hrows hrowOf] at hvalue
    obtain ⟨fresh, hedge⟩ := hvalue
    exact ⟨fresh, row, hrow, hedge⟩
  · rintro ⟨fresh, row, hrow, hedge⟩
    have hbound : source < exploration.found.size :=
      hcomplete.rows_eq ▸ (Array.getElem?_eq_some_iff.1 hrow).1
    obtain ⟨key, hkey⟩ := Numbering.lt_size_iff.1 hbound
    refine ⟨_, ⟨key, hkey, rfl⟩, ?_⟩
    rw [hstate, hrow, Option.getD_some, hrows (hcomplete.row_of source key row hkey hrow)]
    exact ⟨fresh, hedge⟩

variable [Std.TransOrd κ] [Std.LawfulEqOrd κ]

/-- A search makes an automaton that is breadth-first. -/
theorem breadthFirst_ofExploration {fuel : Nat}
    (hrun : run step none symbols fuel first = .ok exploration)
    (hcomplete : Complete step symbols first exploration) (hsymbols : symbols.Pairwise (· < ·))
    (hstate : ∀ number key table, (state number key table).transitions = table) :
    (ofExploration exploration symbols state).BreadthFirst where
  start_eq := start_ofExploration hcomplete.first_key
  exists_discovery number hnumber hpositive := by
    rw [size_states_ofExploration] at hnumber
    obtain ⟨source, ⟨symbol, _, fresh⟩, harrow, rfl, hsource, hfirst⟩ :=
      exists_discovery hrun hcomplete hsymbols hpositive hnumber
    simp only [next_eq_some_iff_mem_arrows hcomplete hsymbols hstate]
    refine ⟨source, symbol, hsource, ⟨fresh, harrow⟩, ?_⟩
    rintro other label target ⟨known, hother⟩ hlater
    rcases hfirst _ hother hlater with hsame | hbefore | ⟨hsame, hless⟩
    · cases hsame
      exact Or.inr ⟨rfl, Or.inl rfl⟩
    · exact Or.inl hbefore
    · exact Or.inr ⟨hsame, Or.inr hless⟩

end Search

theorem breadthFirst_ofNfa {nfa : Nfa} {dfa : Dfa} (hintact : nfa.Intact)
    (hmade : ofNfa nfa none = .ok dfa) : dfa.BreadthFirst := by
  obtain ⟨symbols, whole, first, exploration, -, -, -, -, -, hrun, hcomplete, hother⟩ :=
    run_ofNfa hintact
  have hsymbols : symbols.Pairwise (· < ·) := pairwise_alphabet (alphabet_ofNfa hother)
  obtain rfl := Except.ok.inj (hother.symm.trans hmade)
  exact breadthFirst_ofExploration hrun hcomplete hsymbols fun _ _ _ => rfl

theorem breadthFirst_direct {regex : Regex} {dfa : Dfa} {trace : List TraceStep}
    (hknown : regex.isKnown) (hmade : regex.direct none = .ok (dfa, trace)) :
    dfa.BreadthFirst := by
  obtain ⟨marked, finish, _, exploration, -, -, -, -, rfl, hrun, hcomplete, rfl⟩ :=
    Regex.search_of_direct hknown hmade
  exact breadthFirst_ofExploration hrun hcomplete (Ascending.pairwise_ofList _) fun _ _ _ => rfl

theorem canonical_ofNfa {nfa : Nfa} (hintact : nfa.Intact) :
    ∃ dfa, ofNfa nfa none = .ok dfa ∧ dfa.Canonical := by
  obtain ⟨dfa, hmade, -⟩ := walk_ofNfa hintact
  exact ⟨dfa, hmade, (breadthFirst_ofNfa hintact hmade).canonical⟩

theorem canonical_direct {regex : Regex} (hknown : regex.isKnown) :
    ∃ dfa trace, regex.direct none = .ok (dfa, trace) ∧ dfa.Canonical := by
  obtain ⟨dfa, trace, hmade, -⟩ := Regex.direct_acceptsWord hknown
  exact ⟨dfa, trace, hmade, (breadthFirst_direct hknown hmade).canonical⟩

/-- Both constructions succeed without a limit, and whatever the limit, the states of what they make
are numbered in the order of their access words. -/
theorem constructions_canonical :
    (∀ nfa : Nfa, nfa.Intact → (∃ dfa, ofNfa nfa none = .ok dfa) ∧
      ∀ limit dfa, ofNfa nfa limit = .ok dfa → dfa.Canonical) ∧
    ∀ regex : Regex, regex.isKnown → (∃ dfa trace, regex.direct none = .ok (dfa, trace)) ∧
      ∀ limit dfa trace, regex.direct limit = .ok (dfa, trace) → dfa.Canonical := by
  constructor
  · intro nfa hintact
    obtain ⟨dfa, hmade, hcanonical⟩ := canonical_ofNfa hintact
    refine ⟨⟨dfa, hmade⟩, fun limit other hother => ?_⟩
    rwa [ofNfa_unique hmade hother]
  · intro regex hknown
    obtain ⟨dfa, trace, hmade, hcanonical⟩ := canonical_direct hknown
    refine ⟨⟨dfa, trace, hmade⟩, fun limit other log hother => ?_⟩
    obtain ⟨table, hfirst, htable⟩ := Regex.exists_table hknown
    rw [htable] at hmade hother
    cases FollowTable.direct_unique hfirst hmade hother
    exact hcanonical

/-- An automaton with a circle of silent moves, and a tree one of whose characters is the text of
the end marker. -/
theorem constructions_canonical_circle :
    (circleNfa.Intact ∧ (∃ dfa, ofNfa circleNfa none = .ok dfa) ∧
      ∀ limit dfa, ofNfa circleNfa limit = .ok dfa → dfa.Canonical) ∧
    (Regex.star (.char "#")).isKnown ∧
      (∃ dfa trace, (Regex.star (.char "#")).direct none = .ok (dfa, trace)) ∧
      ∀ limit dfa trace,
        (Regex.star (.char "#")).direct limit = .ok (dfa, trace) → dfa.Canonical :=
  have hintact : circleNfa.Intact := Nfa.intact_of_targets (by decide) (by decide)
  ⟨⟨hintact, constructions_canonical.1 circleNfa hintact⟩, rfl,
    constructions_canonical.2 (.star (.char "#")) rfl⟩

end Dfa
end RegexAutomata
