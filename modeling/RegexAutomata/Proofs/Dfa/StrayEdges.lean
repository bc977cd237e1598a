import RegexAutomata.Proofs.Dfa.Limit
import RegexAutomata.Proofs.Dfa.Representation

/-!
# Stray edges

An edge is stray if it leads to a state that does not exist.  The determinization walks all edges
that it can reach when it collects the alphabet, whatever their symbols.  So it fails there if one
of them is stray, before any state is made and counted, and otherwise it meets no stray edge later
on.  Edges of states that cannot be reached have no part in it.
-/

namespace RegexAutomata

namespace Nfa

variable {nfa other : Nfa}

section Search

theorem intact_iff_not :
    nfa.Intact ↔ ¬ (¬ nfa.Exists nfa.start ∨ ∃ id, nfa.Reachable id ∧ ¬ nfa.Exists id) := by
  constructor
  · rintro hintact (hstart | ⟨id, hreachable, habsent⟩)
    · exact hstart (hintact _ .refl)
    · exact habsent (hintact id hreachable)
  · intro hnone id hreachable
    by_contra habsent
    exact hnone (Or.inr ⟨id, hreachable, habsent⟩)

theorem mem_reached_iff {reached : List StateNumber}
    (hreached : nfa.reach State.allTargets [nfa.start] = .ok reached) {id : StateNumber} :
    id ∈ reached ↔ nfa.Reachable id := by
  rcases reach_allTargets nfa with ⟨-, hfails⟩ | ⟨-, found, hfound, hmem⟩
  · cases hreached.symm.trans hfails
  · rw [Except.ok.inj (hreached.symm.trans hfound), hmem]

theorem alphabet_eq_error (hstray : ¬ nfa.Intact) : nfa.alphabet = .error .noSuchState := by
  rcases reach_allTargets nfa with ⟨-, hfails⟩ | ⟨hintact, -⟩
  · rw [alphabet, hfails]
    rfl
  · exact absurd hintact hstray

theorem intact_of_alphabet {symbols : List String} (hsymbols : nfa.alphabet = .ok symbols) :
    nfa.Intact := by
  by_contra hstray
  cases hsymbols.symm.trans (alphabet_eq_error hstray)

end Search

/-- Two automata start alike and do not differ in a state that edges of the first one lead to. -/
structure Agrees (nfa other : Nfa) : Prop where
  start_eq : other.start = nfa.start
  size_eq : other.states.size = nfa.states.size
  find?_eq : ∀ id, nfa.Reachable id → other.find? id = nfa.find? id

namespace Agrees

variable (hagrees : nfa.Agrees other) {source target id : StateNumber} {symbol : String}

include hagrees

theorem edge_iff (hsource : nfa.Reachable source) :
    other.Edge source symbol target ↔ nfa.Edge source symbol target := by
  rw [Edge, Edge, hagrees.find?_eq source hsource]

/-- Edges that lead to a state in one automaton lead there in the other one as well. -/
theorem reachable_iff : other.Reachable id ↔ nfa.Reachable id := by
  rw [Reachable, hagrees.start_eq]
  constructor
  · intro hreachable
    induction hreachable with
    | refl => exact .refl
    | tail _ hadjacent ih =>
      obtain ⟨symbol, hedge⟩ := hadjacent
      exact ih.tail ⟨symbol, (hagrees.edge_iff ih).1 hedge⟩
  · intro hreachable
    induction hreachable with
    | refl => exact .refl
    | tail hsource hadjacent ih =>
      obtain ⟨symbol, hedge⟩ := hadjacent
      exact ih.tail ⟨symbol, (hagrees.edge_iff hsource).2 hedge⟩

theorem symm : other.Agrees nfa where
  start_eq := hagrees.start_eq.symm
  size_eq := hagrees.size_eq.symm
  find?_eq id hreachable := (hagrees.find?_eq id (hagrees.reachable_iff.1 hreachable)).symm

theorem path {word : List String} (hsource : nfa.Reachable source)
    (hpath : nfa.Path source word target) : other.Path source word target := by
  induction hpath with
  | nil => exact .nil _
  | silent hedge _ ih =>
    exact .silent ((hagrees.edge_iff hsource).2 hedge) (ih (hsource.tail ⟨_, hedge⟩))
  | read hsymbol hedge _ ih =>
    exact .read hsymbol ((hagrees.edge_iff hsource).2 hedge) (ih (hsource.tail ⟨_, hedge⟩))

theorem path_iff {word : List String} (hsource : nfa.Reachable source) :
    other.Path source word target ↔ nfa.Path source word target :=
  ⟨hagrees.symm.path (hagrees.reachable_iff.2 hsource), hagrees.path hsource⟩

theorem intact_iff : other.Intact ↔ nfa.Intact := by
  refine forall_congr' fun id => ?_
  rw [hagrees.reachable_iff]
  refine imp_congr_right fun hreachable => ?_
  rw [Exists, Exists, hagrees.find?_eq id hreachable]

theorem reads_iff (hsource : nfa.Reachable source) :
    other.Reads source symbol target ↔ nfa.Reads source symbol target := by
  refine and_congr_right fun _ => exists_congr fun middle => ?_
  rw [hagrees.edge_iff hsource]
  exact and_congr_right fun hedge => hagrees.path_iff (hsource.tail ⟨symbol, hedge⟩)

variable (hintact : nfa.Intact)

include hintact

/-- The alphabet is collected from reachable states only. -/
theorem alphabet_eq : other.alphabet = nfa.alphabet := by
  obtain ⟨symbols, hsymbols, hmem⟩ := Nfa.alphabet_eq hintact
  obtain ⟨others, hothers, hmemOthers⟩ := Nfa.alphabet_eq (hagrees.intact_iff.2 hintact)
  rw [hsymbols, hothers, Except.ok.injEq]
  refine List.Pairwise.eq_of_mem_iff (Dfa.pairwise_alphabet hothers)
    (Dfa.pairwise_alphabet hsymbols) fun symbol => ?_
  rw [hmem, hmemOthers]
  refine and_congr_right fun _ => exists_congr fun id => exists_congr fun state => ?_
  rw [hagrees.reachable_iff]
  refine and_congr_right fun hreachable => ?_
  rw [hagrees.find?_eq id hreachable]

/-- Silent moves from reachable states stay within them. -/
theorem closure_eq {ids : List StateNumber} (hids : ∀ id ∈ ids, nfa.Reachable id) :
    other.closure ids = nfa.closure ids := by
  obtain ⟨closed, hclosed, hascending, hmem⟩ := Nfa.closure_eq hintact hids
  obtain ⟨others, hothers, hascendingOthers, hmemOthers⟩ :=
    Nfa.closure_eq (hagrees.intact_iff.2 hintact) fun id hid =>
      hagrees.reachable_iff.2 (hids id hid)
  rw [hclosed, hothers, Except.ok.injEq]
  refine List.Pairwise.eq_of_mem_iff hascendingOthers hascending fun id => ?_
  rw [hmem, hmemOthers]
  exact exists_congr fun first => and_congr_right fun hfirst =>
    hagrees.path_iff (hids first hfirst)

end Agrees

end Nfa

namespace Dfa

open Nfa Exploration

variable {nfa other : Nfa}

theorem ofExploration_congr {κ : Type} [Ord κ] {exploration : Exploration κ}
    {left right : Nat → κ → Table String Nat → State}
    (hsame : ∀ number key, exploration.found.key? number = some key →
      left number key = right number key)
    (alphabet : List String) :
    ofExploration exploration alphabet left = ofExploration exploration alphabet right := by
  have hstates : (exploration.entries.mapIdx fun number entry =>
      left number entry.1 (entry.2.map fun edge => (edge.symbol, edge.target))) =
      exploration.entries.mapIdx fun number entry =>
        right number entry.1 (entry.2.map fun edge => (edge.symbol, edge.target)) := by
    rw [List.mapIdx_eq_mapIdx_iff]
    intro number hnumber
    have hbound : number < exploration.found.keys.size := by
      simpa [Exploration.entries] using hnumber
    have hkey : exploration.found.key? number = some exploration.entries[number].1 := by
      simp [Exploration.entries, Numbering.key?, hbound]
    rw [hsame number _ hkey]
  rw [ofExploration, ofExploration, hstates]

theorem subsetState_of_agrees (hagrees : nfa.Agrees other) {key : List StateNumber}
    (hkey : ∀ id ∈ key, nfa.Reachable id) (id : Nat) :
    subsetState other id key = subsetState nfa id key := by
  have haccepting : key.any other.isAccepting = key.any nfa.isAccepting := by
    rw [Bool.eq_iff_iff, List.any_eq_true, List.any_eq_true]
    refine exists_congr fun member => and_congr_right fun hmember => ?_
    rw [isAccepting, isAccepting, hagrees.find?_eq member (hkey member hmember)]
  funext transitions
  rw [subsetState, subsetState, haccepting]

/-- Without a limit, states that cannot be reached have no part in the determinization. -/
theorem ofNfa_none_of_agrees (hagrees : nfa.Agrees other) (hintact : nfa.Intact) :
    ofNfa other none = ofNfa nfa none := by
  obtain ⟨symbols, whole, first, exploration, hwhole, hcollects, hascending, hwithin, hmem, hrun,
    hcomplete, hmade⟩ := run_ofNfa hintact
  obtain ⟨otherSymbols, otherWhole, otherFirst, otherExploration, hotherWhole, hothers,
    hotherAscending, -, hotherMem, hotherRun, -, hotherMade⟩ :=
    run_ofNfa (hagrees.intact_iff.2 hintact)
  obtain rfl : otherSymbols = symbols := by
    have halphabet := hagrees.alphabet_eq hintact
    rw [alphabet_ofNfa hmade, alphabet_ofNfa hotherMade] at halphabet
    exact Except.ok.inj halphabet
  obtain rfl : otherWhole = whole := by
    ext id
    rw [hwhole, hotherWhole, hagrees.reachable_iff]
  obtain rfl : otherFirst = first := hotherAscending.eq_of_mem_iff hascending fun id => by
    rw [hmem, hotherMem, hagrees.start_eq, hagrees.path_iff .refl]
  obtain rfl : otherExploration = exploration := by
    rw [hagrees.size_eq, hcollects.run_eq hothers (fun before hbefore _ _ =>
      hagrees.reads_iff ((hwhole before).1 hbefore)) hascending hwithin, hrun] at hotherRun
    exact (Except.ok.inj hotherRun).symm
  rw [hmade, hotherMade]
  refine congrArg _ (ofExploration_congr (fun number key hkey => ?_) _)
  have hmembers := (hcollects.of_reachable hascending hwithin (hcomplete.sound number key hkey)).2
  exact subsetState_of_agrees hagrees (fun id hid => (hwhole id).1 (hmembers id hid)) number

/-- The construction looks a state up for every edge that it follows, so that a missing one does not
escape it. -/
theorem ofNfa_eq_noSuchState_iff (nfa : Nfa) (limit : Option Int) :
    ofNfa nfa limit = .error .noSuchState ↔ ¬ nfa.Intact := by
  constructor
  · rintro hfails hintact
    obtain ⟨dfa, hmade, -⟩ := walk_ofNfa hintact
    cases limit with
    | none => cases hmade.symm.trans hfails
    | some limit =>
      rw [ofNfa_some hmade, within] at hfails
      split at hfails <;> cases hfails
  · intro hstray
    rw [ofNfa, alphabet_eq_error hstray]
    rfl

/-- Whatever the limit, states that cannot be reached have no part in the determinization. -/
theorem ofNfa_of_agrees (hagrees : nfa.Agrees other) (limit : Option Int) :
    ofNfa other limit = ofNfa nfa limit := by
  by_cases hintact : nfa.Intact
  · have hsame := ofNfa_none_of_agrees hagrees hintact
    obtain ⟨dfa, hmade, -⟩ := walk_ofNfa hintact
    cases limit with
    | none => exact hsame
    | some limit => rw [ofNfa_some hmade, ofNfa_some (hsame.trans hmade)]
  · have hstray : ¬ other.Intact := fun hother => hintact (hagrees.intact_iff.1 hother)
    rw [(ofNfa_eq_noSuchState_iff nfa limit).2 hintact,
      (ofNfa_eq_noSuchState_iff other limit).2 hstray]

/-- The determinization fails at a state that does not exist if the start does not exist or edges
lead from it to such a state, whatever the limit, and it fails there while it collects the alphabet.
After that nothing but the limit can make it fail.  What leaves states that cannot be reached makes
no difference. -/
theorem ofNfa_stray_exact (nfa : Nfa) :
    (∀ limit, ofNfa nfa limit = .error .noSuchState ↔
      ¬ nfa.Exists nfa.start ∨ ∃ id, nfa.Reachable id ∧ ¬ nfa.Exists id) ∧
    (∀ symbols, nfa.alphabet = .ok symbols →
      ∃ dfa, HonoursLimit (ofNfa nfa) (·.states.size) dfa) ∧
    ∀ other, nfa.Agrees other → ∀ limit, ofNfa other limit = ofNfa nfa limit := by
  refine ⟨fun limit => ?_, fun symbols hsymbols => ?_, fun other hagrees limit => ?_⟩
  · rw [ofNfa_eq_noSuchState_iff, intact_iff_not, not_not]
  · obtain ⟨dfa, hmade, -⟩ := walk_ofNfa (intact_of_alphabet hsymbols)
    exact ⟨dfa, honoursLimit_of_within hmade (ofNfa_some hmade)⟩
  · exact ofNfa_of_agrees hagrees limit

/-- The start leads to a state with a silent move to a state that does not exist. -/
def cliffNfa : Nfa where
  states := #[.link "a" 1 { id := 0 }, .link "b" 0 (.link epsilon 7 { id := 1 })]
  start := 0
  finish := 1

/-- A state out of reach has an edge to a state that does not exist, and one to the start. -/
def islandNfa : Nfa where
  states := #[.link "a" 1 { id := 0 }, .accept (.link "b" 0 { id := 1 }),
    .link "c" 7 (.link epsilon 0 { id := 2 })]
  start := 0
  finish := 1

/-- The state out of reach has no edges. -/
def mainlandNfa : Nfa :=
  { islandNfa with
    states := #[.link "a" 1 { id := 0 }, .accept (.link "b" 0 { id := 1 }), { id := 2 }] }

theorem agrees_mainlandNfa : islandNfa.Agrees mainlandNfa where
  start_eq := rfl
  size_eq := rfl
  find?_eq id hreachable := by
    have hreached : islandNfa.reach State.allTargets [islandNfa.start] = .ok [0, 1] := by
      decide +kernel
    rw [← mem_reached_iff hreached] at hreachable
    simp only [List.mem_cons, List.not_mem_nil, or_false] at hreachable
    rcases hreachable with rfl | rfl <;> rfl

theorem ofNfa_stray_exact_islandNfa :
    (islandNfa.alphabet = .ok ["a", "b"] ∧
      ∃ dfa, HonoursLimit (ofNfa islandNfa) (·.states.size) dfa) ∧
    (islandNfa.Agrees mainlandNfa ∧
      ∀ limit, ofNfa mainlandNfa limit = ofNfa islandNfa limit) ∧
    (cliffNfa.Reachable 7 ∧ ¬ cliffNfa.Exists 7 ∧
      ∀ limit, ofNfa cliffNfa limit = .error .noSuchState) := by
  have halphabet : islandNfa.alphabet = .ok ["a", "b"] := by decide +kernel
  have hfirst : cliffNfa.Adjacent 0 1 := ⟨"a", .link "a" 1 { id := 0 }, rfl, by decide⟩
  have hstray : cliffNfa.Adjacent 1 7 :=
    ⟨epsilon, .link "b" 0 (.link epsilon 7 { id := 1 }), rfl, by decide⟩
  have hreachable : cliffNfa.Reachable 7 := (Relation.ReflTransGen.single hfirst).tail hstray
  have habsent : ¬ cliffNfa.Exists 7 := by decide
  obtain ⟨-, hlimits, hagreeing⟩ := ofNfa_stray_exact islandNfa
  refine ⟨⟨halphabet, hlimits _ halphabet⟩,
    ⟨agrees_mainlandNfa, hagreeing _ agrees_mainlandNfa⟩, hreachable, habsent, fun limit => ?_⟩
  exact ((ofNfa_stray_exact cliffNfa).1 limit).2 (Or.inr ⟨7, hreachable, habsent⟩)

end Dfa
end RegexAutomata
