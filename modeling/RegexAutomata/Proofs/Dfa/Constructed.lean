import RegexAutomata.Proofs.Dfa.Agreement
import RegexAutomata.Proofs.Dfa.Determinization
import RegexAutomata.Proofs.Dfa.Direct
import RegexAutomata.Proofs.Nfa.Assembled
import RegexAutomata.Proofs.Regex.Literals

/-!
# Constructed automata

For a tree of single characters both constructions make automata that are well formed and accept
the words of the tree.
-/

namespace RegexAutomata

open Exploration

namespace Dfa

/-- The automaton of a complete search over single characters is well formed. -/
theorem wellFormed_ofExploration {κ : Type} [Ord κ] {exploration : Exploration κ}
    {symbols : List String} {state : Nat → κ → Table String Nat → State}
    {step : κ → String → Except Failure (Option κ)} {first : κ}
    (hcomplete : Complete step symbols first exploration)
    (htransitions : ∀ number key table, (state number key table).transitions = table)
    (hsymbols : ∀ symbol ∈ symbols, IsSingle symbol) :
    (ofExploration exploration symbols state).WellFormed := by
  have hvalue : ∀ found ∈ (ofExploration exploration symbols state).states, ∀ symbol target,
      Table.value? symbol found.transitions = some target →
        symbol ∈ symbols ∧ target < exploration.found.size := by
    intro found hfound symbol target htarget
    obtain ⟨number, hnumber⟩ := Array.mem_iff_getElem?.1 hfound
    rw [getElem?_states_ofExploration, Option.map_eq_some_iff] at hnumber
    obtain ⟨key, hkey, rfl⟩ := hnumber
    obtain ⟨row, hrow, hrowOf⟩ := hcomplete.exists_row hkey
    rw [htransitions, hrow, Option.getD_some, hrowOf.value?_eq_some_iff] at htarget
    obtain ⟨hsymbol, next, -, hnext⟩ := htarget
    exact ⟨hsymbol, Numbering.lt_size_iff.2 ⟨next, hnext⟩⟩
  constructor
  · intro index hindex
    rw [start_ofExploration hcomplete.first_key] at hindex
    obtain rfl := Option.some.inj hindex
    rw [size_states_ofExploration, Numbering.lt_size_iff]
    exact ⟨first, hcomplete.first_key⟩
  · intro found hfound symbol target htarget
    rw [size_states_ofExploration]
    exact (hvalue found hfound symbol target htarget).2
  · exact fun found hfound symbol target htarget => (hvalue found hfound symbol target htarget).1
  · exact hsymbols

/-- A well-formed automaton that accepts the words of a language and no others. -/
structure Recognizes (dfa : Dfa) (language : Language String) : Prop where
  wellFormed : dfa.WellFormed
  accepts : ∀ text, ∃ answer, dfa.accepts text = .ok answer ∧
    (answer = true ↔ symbolsOf text ∈ language)

/-- Automata for the same language are equivalent. -/
theorem Recognizes.isEquivalent {left right : Dfa} {language : Language String}
    (hleft : left.Recognizes language) (hright : right.Recognizes language) :
    left.isEquivalent right = .ok true := by
  obtain ⟨answer, hanswer, htrue⟩ := isEquivalent_iff hleft.wellFormed hright.wellFormed
  rw [hanswer, Except.ok.injEq, htrue]
  intro text
  obtain ⟨first, hfirst, hmem⟩ := hleft.accepts text
  obtain ⟨second, hsecond, hsame⟩ := hright.accepts text
  rw [hfirst, hsecond, Except.ok.injEq, Bool.eq_iff_iff, hmem, hsame]

theorem alphabet_ofNfa {nfa : Nfa} {limit : Option Int} {dfa : Dfa}
    (hmade : ofNfa nfa limit = .ok dfa) : nfa.alphabet = .ok dfa.alphabet := by
  obtain ⟨symbols, hsymbols, hrest⟩ := Traversal.bind_eq_ok_iff.1 hmade
  obtain ⟨first, -, hrest⟩ := Traversal.bind_eq_ok_iff.1 hrest
  obtain ⟨exploration, -, hresult⟩ := Traversal.bind_eq_ok_iff.1 hrest
  cases hresult
  exact hsymbols

/-- The determinization of the automaton of a tree says of every word whether it belongs to the
tree, unless one of the characters reads nothing. -/
theorem ofNfa_acceptsWord {regex : Regex} {nfa : Nfa} (hknown : regex.isKnown)
    (hvalues : epsilon ∉ regex.values) (hnfa : Nfa.ofRegex regex = .ok nfa) :
    ∃ dfa, ofNfa nfa none = .ok dfa ∧ ∀ word,
      ∃ answer, dfa.acceptsWord word = .ok answer ∧ (answer = true ↔ word ∈ regex.language) := by
  obtain ⟨dfa, hmade, hwalks⟩ := walk_ofNfa (Nfa.intact_ofRegex hknown hnfa)
  refine ⟨dfa, hmade, fun word => ?_⟩
  obtain ⟨reached, hwalk, hsome, hstate⟩ := hwalks word
  rw [acceptsWord_eq hwalk, ← Nfa.exists_accepting_iff hknown hnfa hvalues]
  cases reached with
  | none =>
    refine ⟨false, rfl, iff_of_false Bool.false_ne_true ?_⟩
    rintro ⟨id, hpath, -⟩
    cases hsome.2 ⟨id, hpath⟩
  | some index =>
    obtain ⟨state, ids, hfound, -, -, -, haccepting⟩ := hstate index rfl
    refine ⟨state.accepting, ?_, haccepting⟩
    rw [Option.elim_some, hfound]
    rfl

/-- The determinization of the automaton of a tree recognizes the language of the tree. -/
theorem recognizes_ofNfa {regex : Regex} {nfa : Nfa} (hknown : regex.isKnown)
    (hsingle : ∀ value ∈ regex.values, IsSingle value) (hvalues : epsilon ∉ regex.values)
    (hnfa : Nfa.ofRegex regex = .ok nfa) :
    ∃ dfa, ofNfa nfa none = .ok dfa ∧ dfa.Recognizes regex.language := by
  obtain ⟨dfa, hdfa, haccepts⟩ := ofNfa_acceptsWord hknown hvalues hnfa
  obtain ⟨symbols, whole, first, exploration, -, -, -, -, hcomplete, hmade⟩ :=
    ofNfa_eq (Nfa.intact_ofRegex hknown hnfa)
  obtain rfl := Except.ok.inj (hmade.symm.trans hdfa)
  refine ⟨_, hdfa, ?_, fun text => ?_⟩
  · obtain ⟨others, hothers, hmem⟩ := Nfa.alphabet_ofRegex hknown hnfa
    obtain rfl : others = symbols := Except.ok.inj (hothers.symm.trans (alphabet_ofNfa hmade))
    exact wellFormed_ofExploration hcomplete (fun _ _ _ => rfl)
      fun symbol hsymbol => hsingle symbol (hmem symbol hsymbol)
  · rw [accepts_eq_acceptsWord]
    exact haccepts (symbolsOf text)

end Dfa

namespace Regex

open MarkedRegex

theorem Derives.isSingle {level : Level} {text : List Char} {regex : Regex}
    (hderives : Derives level text regex) : ∀ value ∈ regex.values, IsSingle value := by
  intro value hvalue
  obtain ⟨character, -, hequal⟩ := hderives.isLiteral value hvalue
  exact ⟨character, hequal⟩

/-- The direct construction recognizes the language of the tree. -/
theorem recognizes_direct {regex : Regex} (hknown : regex.isKnown)
    (hsingle : ∀ value ∈ regex.values, IsSingle value) :
    ∃ dfa trace, regex.direct none = .ok (dfa, trace) ∧ dfa.Recognizes regex.language := by
  obtain ⟨dfa, trace, hdirect, haccepts⟩ := direct_acceptsWord hknown
  refine ⟨dfa, trace, hdirect, ?_, fun text => ?_⟩
  · obtain ⟨marked, finish, _, exploration, -, rfl, -, -, rfl, -, hcomplete, rfl⟩ :=
      search_of_direct hknown hdirect
    refine Dfa.wellFormed_ofExploration hcomplete (fun _ _ _ => rfl) fun symbol hsymbol => ?_
    obtain ⟨position, hleaf, -⟩ := FollowTable.mem_alphabet_ofMarked.1 hsymbol
    rcases List.mem_append.1 hleaf with hown | hmarker
    · apply hsingle
      rw [values_unmarked]
      exact List.mem_map_of_mem hown
    · exact ⟨'#', congrArg Prod.snd (List.mem_singleton.1 hmarker)⟩
  · rw [Dfa.accepts_eq_acceptsWord]
    exact haccepts (symbolsOf text)

end Regex
end RegexAutomata
