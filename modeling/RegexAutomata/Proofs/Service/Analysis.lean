import RegexAutomata.Proofs.Dfa.Constructed
import RegexAutomata.Proofs.Dfa.Limit
import RegexAutomata.Proofs.Dfa.Run
import RegexAutomata.Proofs.Regex.Literals
import RegexAutomata.Service.Session

/-!
# What an analysis says

An analysis belongs to the text that it was made of: its tree is the one that is read from the text,
and both automata recognize the language of this tree, whatever the conditions were under which it
was made.  So the automata are found to be equivalent and their runs to be consistent.
-/

namespace RegexAutomata

namespace Analysis

/-- Everything in the analysis was made of its regular expression, under some conditions. -/
def Made (analysis : Analysis) : Prop :=
  ∃ conditions, build conditions analysis.regex = .ok analysis

/-- What an analysis is good for. -/
structure Sound (analysis : Analysis) : Prop where
  parsed : Regex.parse analysis.regex = .ok analysis.tree
  subset : analysis.dfa.Recognizes analysis.tree.language
  direct : analysis.directDfa.Recognizes analysis.tree.language
  listed : ∃ entries, analysis.table.entries = .ok entries

section Build

variable {conditions : Conditions} {text : String} {analysis : Analysis}

/-- The parts of an analysis are made one from the other. -/
theorem build_eq_ok (hbuild : build conditions text = .ok analysis) :
    analysis.regex = text ∧ Regex.parse text = .ok analysis.tree ∧
      Nfa.ofRegex analysis.tree = .ok analysis.nfa ∧
      Dfa.ofNfa analysis.nfa conditions.maxStates = .ok analysis.dfa ∧
      analysis.tree.annotate = .ok analysis.annotated ∧
      analysis.table.direct conditions.maxStates = .ok (analysis.directDfa, analysis.trace) := by
  obtain ⟨tree, hread, hrest⟩ := Traversal.bind_eq_ok_iff.1 hbuild
  obtain ⟨nfa, hassembled, hrest⟩ := Traversal.bind_eq_ok_iff.1 hrest
  obtain ⟨dfa, hdfa, hrest⟩ := Traversal.bind_eq_ok_iff.1 hrest
  obtain ⟨annotated, hannotated, hrest⟩ := Traversal.bind_eq_ok_iff.1 hrest
  obtain ⟨⟨directDfa, trace⟩, hdirect, hresult⟩ := Traversal.bind_eq_ok_iff.1 hrest
  cases hresult
  have hnfa : Nfa.ofRegex tree = .ok nfa := by
    rw [assemble] at hassembled
    split at hassembled
    · cases hassembled
    · exact hassembled
  exact ⟨rfl, Traversal.mapError_eq_ok_iff.1 hread, hnfa, hdfa, hannotated, hdirect⟩

/-- The table is that of the numbered tree. -/
theorem table_of_build (hbuild : build conditions text = .ok analysis) :
    ∃ (marked : MarkedRegex) (finish : Position), analysis.tree.marked = .ok (marked.ended finish) ∧
      (marked.ended finish).Distinct ∧ analysis.table = .ofMarked (marked.ended finish) := by
  obtain ⟨-, hparse, -, -, hannotated, -⟩ := build_eq_ok hbuild
  obtain ⟨marked, finish, hmarked, -, hpositions, -⟩ :=
    Regex.marked_eq (Regex.derives_of_parse hparse).isKnown
  refine ⟨marked, finish, hmarked, MarkedRegex.distinct_of_consecutive hpositions, ?_⟩
  rw [table, ← Except.ok.inj ((Regex.annotate_of_marked hmarked).symm.trans hannotated),
    Annotated.table_ofMarked]

theorem first_of_build (hbuild : build conditions text = .ok analysis) :
    analysis.table.first ≠ [] := by
  obtain ⟨marked, finish, -, -, htable⟩ := table_of_build hbuild
  exact htable ▸ MarkedRegex.first_ne_nil _

/-- However an analysis was made, it is sound. -/
theorem sound_of_build (hbuild : build conditions text = .ok analysis) : analysis.Sound := by
  obtain ⟨marked, finish, hmarked, hdistinct, htable⟩ := table_of_build hbuild
  have hfirst := first_of_build hbuild
  obtain ⟨rfl, hparse, hnfa, hdfa, -, hdirect⟩ := build_eq_ok hbuild
  have hderives := Regex.derives_of_parse hparse
  have hknown := hderives.isKnown
  have hsingle := hderives.isSingle
  have hvalues := hderives.epsilon_not_mem
  obtain ⟨subset, hsubset, hrecognizes⟩ := Dfa.recognizes_ofNfa hknown hsingle hvalues hnfa
  obtain ⟨direct, trace, hmade, hdirectRecognizes⟩ := Regex.recognizes_direct hknown hsingle
  rw [Regex.direct_of_marked hmarked, ← htable] at hmade
  have hequal := FollowTable.direct_unique hfirst hmade hdirect
  refine ⟨hparse, ?_, ?_, ?_⟩
  · rwa [Dfa.ofNfa_unique hsubset hdfa]
  · rwa [show analysis.directDfa = direct from congrArg Prod.fst hequal]
  · rw [htable]
    exact FollowTable.entries_ofMarked hdistinct

/-- Without limits and without an outage, whatever can be read can be analysed. -/
theorem exists_build_eq_ok {tree : Regex} (hparse : Regex.parse text = .ok tree) :
    ∃ made, build {} text = .ok made := by
  have hderives := Regex.derives_of_parse hparse
  obtain ⟨nfa, hnfa⟩ : ∃ nfa, Nfa.ofRegex tree = .ok nfa := ⟨_, Nfa.ofRegex_eq hderives.isKnown⟩
  obtain ⟨subset, hsubset, -⟩ :=
    Dfa.walk_ofNfa (Nfa.intact_ofRegex hderives.isKnown hnfa)
  obtain ⟨direct, trace, hmade, -⟩ := Regex.direct_acceptsWord hderives.isKnown
  obtain ⟨annotated, hannotated, hdirect⟩ := Traversal.bind_eq_ok_iff.1 hmade
  refine ⟨⟨text, tree, nfa, subset, annotated, direct, trace⟩, ?_⟩
  have hread : (Regex.parse text).mapError Failure.malformed = .ok tree :=
    Traversal.mapError_eq_ok_iff.2 hparse
  simp [build, hread, assemble, hnfa, hsubset, hannotated, hdirect, bind, Except.bind, pure,
    Except.pure]

end Build

namespace Sound

variable {analysis : Analysis}

/-- The report on everything succeeds, and says that the automata are equivalent. -/
theorem report (hsound : analysis.Sound) :
    ∃ report, analysis.report = .ok report ∧
      report.member? "equivalent" = some (.bool true) := by
  obtain ⟨entries, hentries⟩ := hsound.listed
  have hequivalent : analysis.equivalent = .ok true := hsound.subset.isEquivalent hsound.direct
  obtain ⟨direct, hdirect⟩ : ∃ direct, analysis.directReport = .ok direct :=
    ⟨_, by rw [Analysis.directReport, hentries]; rfl⟩
  have hreport : analysis.report = .ok (.object [("regex", .string analysis.regex),
      ("ast", analysis.tree.toJson), ("alphabet", .strings analysis.tree.alphabet),
      ("subset", analysis.subsetReport), ("direct", direct), ("equivalent", .bool true)]) := by
    rw [Analysis.report, hdirect, hequivalent]
    rfl
  exact ⟨_, hreport, rfl⟩

/-- The report on a text succeeds, says that the runs are consistent, and says whether the text is a
word of the tree. -/
theorem runReport (hsound : analysis.Sound) (text : String) :
    ∃ report answer, Session.runReport analysis text = .ok report ∧
      report.member? "consistent" = some (.bool true) ∧
      report.member? "accepted" = some (.bool answer) ∧
      (answer = true ↔ symbolsOf text ∈ analysis.tree.language) := by
  obtain ⟨first, hfirst, hmem⟩ := hsound.subset.accepts text
  obtain ⟨second, hsecond, hsame⟩ := hsound.direct.accepts text
  obtain rfl : first = second := by rw [Bool.eq_iff_iff, hmem, hsame]
  obtain ⟨subset, hsubset, haccepted⟩ := Dfa.exists_simulate hfirst
  obtain ⟨direct, hdirect, hother⟩ := Dfa.exists_simulate hsecond
  have hreport : Session.runReport analysis text = .ok (.object [("regex", .string analysis.regex),
      ("inpStr", .string text), ("subset", subset.toJson), ("direct", direct.toJson),
      ("accepted", .bool first), ("consistent", .bool true)]) := by
    simp [Session.runReport, hsubset, hdirect, haccepted, hother, bind, Except.bind, pure,
      Except.pure]
  exact ⟨_, first, hreport, rfl, rfl, hmem⟩

end Sound

end Analysis
end RegexAutomata
