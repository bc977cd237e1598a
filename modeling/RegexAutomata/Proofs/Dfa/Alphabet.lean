import RegexAutomata.Proofs.Dfa.Limit
import RegexAutomata.Proofs.Dfa.Representation
import RegexAutomata.Proofs.Nfa.Crossing
import RegexAutomata.Proofs.Position.TwoPasses
import RegexAutomata.Proofs.Regex.Literals

/-!
# The alphabets of the constructions

The direct construction takes its alphabet from the positions of a tree, and the determinization
takes it from the edges that it can reach in the assembled automaton.  Both find the values in the
tree, but the value that reads nothing is a symbol to the direct construction only.
-/

namespace RegexAutomata

/-- The values of the tree that an assembled automaton reads. -/
def Regex.readable (regex : Regex) : List String :=
  regex.alphabet.filter fun symbol => symbol ≠ epsilon

/-- The construction succeeds without a limit, and with any limit all it makes has this alphabet. -/
structure HasAlphabet {α : Type} (construct : Option Int → Except Failure α) (automaton : α → Dfa)
    (symbols : List String) : Prop where
  made : ∃ result, construct none = .ok result
  alphabet : ∀ limit result, construct limit = .ok result → (automaton result).alphabet = symbols

namespace Regex

variable {regex : Regex}

theorem mem_readable {symbol : String} :
    symbol ∈ regex.readable ↔ symbol ≠ epsilon ∧ symbol ∈ regex.values := by
  rw [readable, List.mem_filter, mem_alphabet, decide_eq_true_iff, and_comm]

theorem pairwise_alphabet (regex : Regex) : regex.alphabet.Pairwise (· < ·) :=
  Ascending.pairwise_ofList regex.values

theorem readable_eq_alphabet (hvalues : epsilon ∉ regex.values) :
    regex.readable = regex.alphabet := by
  rw [readable, List.filter_eq_self]
  intro symbol hsymbol
  refine decide_eq_true fun hsilent => hvalues ?_
  rw [← hsilent]
  exact mem_alphabet.1 hsymbol

end Regex

/-- The table of a tree with the end marker has the values of the tree for its alphabet.  The end
marker itself is left out by its position, so a character of the same text is kept. -/
theorem FollowTable.alphabet_ofMarked_ended {marked : MarkedRegex} {finish : Position}
    (hdistinct : (marked.ended finish).Distinct)
    (hfinish : finish = (marked.ended finish).leaves.length) :
    (ofMarked (marked.ended finish)).alphabet = marked.unmarked.alphabet := by
  refine List.Pairwise.eq_of_mem_iff (Ascending.pairwise_ofList _)
    (Regex.pairwise_alphabet _) fun symbol => ?_
  rw [mem_alphabet_ofMarked, Regex.mem_alphabet, MarkedRegex.values_unmarked, List.mem_map,
    ← hfinish]
  constructor
  · rintro ⟨position, hleaf, hown⟩
    rcases List.mem_append.1 hleaf with hinner | hmarker
    · exact ⟨(position, symbol), hinner, rfl⟩
    · exact absurd (congrArg Prod.fst (List.mem_singleton.1 hmarker)) hown
  · rintro ⟨⟨position, value⟩, hleaf, rfl⟩
    refine ⟨position, List.mem_append_left _ hleaf, ?_⟩
    rintro rfl
    exact MarkedRegex.finish_not_mem hdistinct (MarkedRegex.mem_positions_of_mem_leaves hleaf)

/-- A table without first positions gives an automaton without states, but the alphabet is kept. -/
theorem FollowTable.alphabet_direct {table : FollowTable} {limit : Option Int}
    {result : Dfa × List TraceStep} (hmade : table.direct limit = .ok result) :
    result.1.alphabet = table.alphabet := by
  rw [direct] at hmade
  split at hmade
  · cases hmade
    rfl
  · obtain ⟨opened, -, hrest⟩ := Traversal.bind_eq_ok_iff.1 hmade
    obtain ⟨draft, -, hresult⟩ := Traversal.bind_eq_ok_iff.1 hrest
    cases hresult
    rfl

namespace Nfa

variable {regex : Regex} {nfa : Nfa}

theorem alphabet_eq_readable (hknown : regex.isKnown) (hnfa : Nfa.ofRegex regex = .ok nfa) :
    nfa.alphabet = .ok regex.readable := by
  obtain ⟨symbols, hsymbols, hmem⟩ := mem_alphabet_ofRegex hknown hnfa
  rw [hsymbols, Except.ok.injEq]
  refine List.Pairwise.eq_of_mem_iff (Dfa.pairwise_alphabet hsymbols)
    ((Regex.pairwise_alphabet regex).filter _) fun symbol => ?_
  rw [hmem]
  exact Regex.mem_readable.symm

theorem hasAlphabet_ofNfa (hknown : regex.isKnown) (hnfa : Nfa.ofRegex regex = .ok nfa) :
    HasAlphabet (Dfa.ofNfa nfa) id regex.readable where
  made := by
    obtain ⟨dfa, hmade, -⟩ := Dfa.walk_ofNfa (intact_ofRegex hknown hnfa)
    exact ⟨dfa, hmade⟩
  alphabet limit dfa hmade := by
    have hsame := (Dfa.alphabet_ofNfa hmade).symm.trans (alphabet_eq_readable hknown hnfa)
    exact Except.ok.inj hsame

end Nfa

namespace Regex

/-- The direct construction takes over the alphabet of its table, which is that of the tree. -/
theorem hasAlphabet_direct {regex : Regex} (hknown : regex.isKnown) :
    ∃ root, regex.marked = .ok root ∧ (FollowTable.ofMarked root).alphabet = regex.alphabet ∧
      HasAlphabet regex.direct Prod.fst regex.alphabet := by
  obtain ⟨marked, finish, hmarked, hregex, hpositions, hfinish⟩ := marked_eq hknown
  have htable : (FollowTable.ofMarked (marked.ended finish)).alphabet = regex.alphabet := by
    rw [FollowTable.alphabet_ofMarked_ended (MarkedRegex.distinct_of_consecutive hpositions)
      hfinish, hregex]
  refine ⟨marked.ended finish, hmarked, htable, ?_, ?_⟩
  · obtain ⟨dfa, trace, hmade, -⟩ := direct_acceptsWord hknown
    exact ⟨(dfa, trace), hmade⟩
  · intro limit result hmade
    rw [direct_of_marked hmarked] at hmade
    exact (FollowTable.alphabet_direct hmade).trans htable

/-- The table of positions, the annotated tree and the direct automaton have the alphabet of the
tree.  The assembled automaton and its determinization have the same one without the symbol that
reads nothing, and for a tree that was read from a text this leaves nothing out. -/
theorem alphabets_agree {regex : Regex} (hknown : regex.isKnown) :
    ∃ root annotated nfa, regex.marked = .ok root ∧ regex.annotate = .ok annotated ∧
      Nfa.ofRegex regex = .ok nfa ∧
      (FollowTable.ofMarked root).alphabet = regex.alphabet ∧
      annotated.table.alphabet = regex.alphabet ∧
      HasAlphabet regex.direct Prod.fst regex.alphabet ∧
      nfa.alphabet = .ok regex.readable ∧
      HasAlphabet (Dfa.ofNfa nfa) id regex.readable ∧
      ∀ text, parse text = .ok regex → regex.readable = regex.alphabet := by
  obtain ⟨root, hroot, htable, hdirect⟩ := hasAlphabet_direct hknown
  have hnfa := Nfa.ofRegex_eq hknown
  have hannotated : (Annotated.ofMarked root).table.alphabet = regex.alphabet := by
    rw [Annotated.table_ofMarked, htable]
  refine ⟨root, _, _, hroot, annotate_of_marked hroot, hnfa, htable, hannotated, hdirect,
    Nfa.alphabet_eq_readable hknown hnfa, Nfa.hasAlphabet_ofNfa hknown hnfa,
    fun text hparse => ?_⟩
  exact readable_eq_alphabet (derives_of_parse hparse).epsilon_not_mem

/-- Characters with the text of the end marker, one that reads nothing and one of two letters. -/
def misleading : Regex :=
  .alternation (.star (.concat (.char endMarker) (.char "ab")))
    (.concat (.char epsilon) (.char endMarker))

theorem alphabets_agree_misleading :
    (misleading.isKnown ∧ ∃ root annotated nfa, misleading.marked = .ok root ∧
      misleading.annotate = .ok annotated ∧ Nfa.ofRegex misleading = .ok nfa ∧
      (FollowTable.ofMarked root).alphabet = misleading.alphabet ∧
      annotated.table.alphabet = misleading.alphabet ∧
      HasAlphabet misleading.direct Prod.fst misleading.alphabet ∧
      nfa.alphabet = .ok misleading.readable ∧
      HasAlphabet (Dfa.ofNfa nfa) id misleading.readable ∧
      ∀ text, parse text = .ok misleading → misleading.readable = misleading.alphabet) ∧
    parse "b*a" = .ok (.concat (.star (.char "b")) (.char "a")) ∧
      (Regex.concat (.star (.char "b")) (.char "a")).readable =
        (Regex.concat (.star (.char "b")) (.char "a")).alphabet := by
  have hparse : parse "b*a" = .ok (.concat (.star (.char "b")) (.char "a")) := by decide +kernel
  obtain ⟨_, _, _, -, -, -, -, -, -, -, -, hread⟩ :=
    @alphabets_agree (.concat (.star (.char "b")) (.char "a")) rfl
  exact ⟨⟨rfl, alphabets_agree rfl⟩, hparse, hread "b*a" hparse⟩

example : misleading.alphabet = ["#", "ab", "ε"] ∧ misleading.readable = ["#", "ab"] := by
  decide +kernel

end Regex
end RegexAutomata
