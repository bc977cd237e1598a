import RegexAutomata.Dfa.Determinization
import RegexAutomata.Proofs.Dfa.Walk
import RegexAutomata.Proofs.Nfa.Reading

/-!
# Determinization is exact

The state in which a word ends stands for exactly the nondeterministic states to which the word
leads from the start.  This holds for every automaton in which no edge leads from the start to a
state that does not exist.
-/

namespace RegexAutomata

namespace Nfa

open Exploration

variable {nfa : Nfa}

/-- One state is reached from another by an edge with a symbol and silent moves after it. -/
def Reads (nfa : Nfa) (before : Int) (symbol : String) (after : Int) : Prop :=
  symbol ≠ epsilon ∧ ∃ middle, nfa.Edge before symbol middle ∧ nfa.Path middle [] after

/-- Reading symbol by symbol, with silent moves after each, comes to following a path. -/
theorem threads_reads_iff {source target : Int} {word : List String} :
    (∃ before, nfa.Path source [] before ∧ Threads nfa.Reads before word target) ↔
      nfa.Path source word target := by
  induction word generalizing source with
  | nil =>
    constructor
    · rintro ⟨before, hpath, rfl⟩
      exact hpath
    · intro hpath
      exact ⟨target, hpath, rfl⟩
  | cons symbol rest ih =>
    rw [path_cons_iff]
    constructor
    · rintro ⟨before, hpath, middle, ⟨hsymbol, after, hedge, hsilent⟩, hrest⟩
      exact ⟨before, hpath, hsymbol, after, hedge, ih.1 ⟨middle, hsilent, hrest⟩⟩
    · rintro ⟨before, hpath, hsymbol, after, hedge, hrest⟩
      obtain ⟨middle, hsilent, hthreads⟩ := ih.2 hrest
      exact ⟨before, hpath, middle, ⟨hsymbol, after, hedge, hsilent⟩, hthreads⟩

/-- Each state that edges lead to from the start has one of two numbers. -/
theorem exists_reachable_ids (hintact : nfa.Intact) :
    ∃ whole : Finset Int, (∀ id, id ∈ whole ↔ nfa.Reachable id) ∧
      whole.card ≤ 2 * nfa.states.size := by
  classical
  refine ⟨nfa.numbers.filter nfa.Reachable, fun id => ?_, ?_⟩
  · rw [Finset.mem_filter, mem_numbers]
    exact and_iff_right_of_imp (hintact id)
  · rw [← card_numbers]
    exact Finset.card_filter_le _ _

/-- A step of the determinization collects the states that are reached by the symbol. -/
theorem collects_step (hintact : nfa.Intact) {symbols : List String} {whole : Finset Int}
    (hwhole : ∀ id, id ∈ whole ↔ nfa.Reachable id)
    (halphabet : ∀ symbol, symbol ∈ symbols ↔ symbol ≠ epsilon ∧ ∃ id state,
      nfa.Reachable id ∧ nfa.find? id = some state ∧ symbol ∈ state.edges.map Prod.fst) :
    Collects nfa.step symbols nfa.Reads whole := by
  constructor
  · intro key hkey symbol hsymbol
    have hreachable : ∀ id ∈ key, nfa.Reachable id := fun id hid =>
      (hwhole id).1 (hkey id hid)
    obtain ⟨moved, hmoved, hmem⟩ :=
      move_eq (fun id hid => hintact id (hreachable id hid)) symbol
    have htargets : ∀ id ∈ moved, nfa.Reachable id := by
      intro id hid
      obtain ⟨before, hbefore, hedge⟩ := (hmem id).1 hid
      exact (hreachable before hbefore).tail ⟨symbol, hedge⟩
    obtain ⟨closed, hclosed, hascending, hclosure⟩ := closure_eq hintact htargets
    have hempty : closed.isEmpty = moved.isEmpty := by
      rw [Bool.eq_iff_iff, List.isEmpty_iff, List.isEmpty_iff, List.eq_nil_iff_forall_not_mem,
        List.eq_nil_iff_forall_not_mem]
      constructor
      · exact fun hnone id hid => hnone id ((hclosure id).2 ⟨id, hid, .nil id⟩)
      · intro hnone id hid
        obtain ⟨first, hfirst, -⟩ := (hclosure id).1 hid
        exact hnone first hfirst
    refine ⟨closed, ?_, hascending, fun id => ?_⟩
    · rw [step, hmoved, hempty]
      cases hnone : moved.isEmpty <;> simp [hclosed, hnone, bind, Except.bind, pure, Except.pure]
    · rw [hclosure]
      constructor
      · rintro ⟨middle, hmiddle, hpath⟩
        obtain ⟨before, hbefore, hedge⟩ := (hmem middle).1 hmiddle
        exact ⟨before, hbefore, ((halphabet symbol).1 hsymbol).1, middle, hedge, hpath⟩
      · rintro ⟨before, hbefore, -, middle, hedge, hpath⟩
        exact ⟨middle, (hmem middle).2 ⟨before, hbefore, hedge⟩, hpath⟩
  · rintro before hbefore symbol after ⟨hsymbol, middle, hedge, -⟩
    obtain ⟨state, hstate, hlisted⟩ := hedge.symbol_mem
    exact (halphabet symbol).2
      ⟨hsymbol, before, state, (hwhole before).1 hbefore, hstate, hlisted⟩
  · rintro before hbefore symbol after ⟨-, middle, hedge, hpath⟩
    have hmiddle : nfa.Reachable middle :=
      ((hwhole before).1 hbefore).tail ⟨symbol, hedge⟩
    exact (hwhole after).2 (hmiddle.path hpath)

end Nfa

namespace Dfa

open Nfa Exploration

def subsetState (nfa : Nfa) (id : Nat) (key : List StateNumber) (transitions : Table String Nat) :
    State :=
  { id, accepting := key.any nfa.isAccepting, transitions, nfaStates := some key }

theorem ofNfa_of_run {nfa : Nfa} {symbols : List String} {first : List StateNumber}
    {exploration : Exploration (List StateNumber)} (hsymbols : nfa.alphabet = .ok symbols)
    (hfirst : nfa.closure [nfa.start] = .ok first)
    (hrun : run nfa.step none symbols (Nat.pow 2 (2 * nfa.states.size)) first = .ok exploration) :
    ofNfa nfa none = .ok (ofExploration exploration symbols (subsetState nfa)) := by
  simp only [ofNfa, hsymbols, hfirst, hrun, bind, Except.bind, pure, Except.pure]
  rfl

/-- The search through the sets of states has an alphabet and a first set, and comes to its end. -/
theorem search_ofNfa {nfa : Nfa} (hintact : nfa.Intact) :
    ∃ symbols whole first exploration, nfa.alphabet = .ok symbols ∧
      nfa.closure [nfa.start] = .ok first ∧ (∀ id, id ∈ whole ↔ nfa.Reachable id) ∧
      Collects nfa.step symbols nfa.Reads whole ∧ first.Pairwise (· < ·) ∧
      (∀ id ∈ first, id ∈ whole) ∧
      (∀ id, id ∈ first ↔ nfa.Path nfa.start [] id) ∧
      run nfa.step none symbols (Nat.pow 2 (2 * nfa.states.size)) first = .ok exploration ∧
      Complete nfa.step symbols first exploration := by
  obtain ⟨symbols, hsymbols, halphabet⟩ := alphabet_eq hintact
  obtain ⟨whole, hwhole, hcard⟩ := exists_reachable_ids hintact
  have hstart : ∀ id ∈ [nfa.start], nfa.Reachable id := by
    intro id hid
    rw [List.mem_singleton.1 hid]
    exact .refl
  obtain ⟨first, hfirst, hascending, hclosure⟩ := closure_eq hintact hstart
  have hmem : ∀ id, id ∈ first ↔ nfa.Path nfa.start [] id := by
    intro id
    rw [hclosure]
    simp
  have hwithin : ∀ id ∈ first, id ∈ whole := fun id hid =>
    (hwhole id).2 ((hstart _ List.mem_cons_self).path ((hmem id).1 hid))
  have hcollects := collects_step hintact hwhole halphabet
  have hfuel : 2 ^ whole.card ≤ Nat.pow 2 (2 * nfa.states.size) :=
    Nat.pow_le_pow_right (by decide) hcard
  obtain ⟨exploration, hrun, hcomplete⟩ := hcollects.run_complete hascending hwithin hfuel
  exact ⟨symbols, whole, first, exploration, hsymbols, hfirst, hwhole, hcollects, hascending,
    hwithin, hmem, hrun, hcomplete⟩

/-- Without a limit the search through the sets of states comes to its end, and the automaton is
made of what it finds. -/
theorem run_ofNfa {nfa : Nfa} (hintact : nfa.Intact) :
    ∃ symbols whole first exploration, (∀ id, id ∈ whole ↔ nfa.Reachable id) ∧
      Collects nfa.step symbols nfa.Reads whole ∧ first.Pairwise (· < ·) ∧
      (∀ id ∈ first, id ∈ whole) ∧
      (∀ id, id ∈ first ↔ nfa.Path nfa.start [] id) ∧
      run nfa.step none symbols (Nat.pow 2 (2 * nfa.states.size)) first = .ok exploration ∧
      Complete nfa.step symbols first exploration ∧
      ofNfa nfa none = .ok (ofExploration exploration symbols (subsetState nfa)) := by
  obtain ⟨symbols, whole, first, exploration, hsymbols, hfirst, hwhole, hcollects, hascending,
    hwithin, hmem, hrun, hcomplete⟩ := search_ofNfa hintact
  exact ⟨symbols, whole, first, exploration, hwhole, hcollects, hascending, hwithin, hmem, hrun,
    hcomplete, ofNfa_of_run hsymbols hfirst hrun⟩

/-- Unless there is a limit, the determinization of an automaton without stray edges succeeds. -/
theorem ofNfa_eq {nfa : Nfa} (hintact : nfa.Intact) :
    ∃ symbols whole first exploration, Collects nfa.step symbols nfa.Reads whole ∧
      first.Pairwise (· < ·) ∧ (∀ id ∈ first, id ∈ whole) ∧
      (∀ id, id ∈ first ↔ nfa.Path nfa.start [] id) ∧
      Complete nfa.step symbols first exploration ∧
      ofNfa nfa none = .ok (ofExploration exploration symbols (subsetState nfa)) := by
  obtain ⟨symbols, whole, first, exploration, -, hcollects, hascending, hwithin, hmem, -, hcomplete,
    hmade⟩ := run_ofNfa hintact
  exact ⟨symbols, whole, first, exploration, hcollects, hascending, hwithin, hmem, hcomplete, hmade⟩

/-- The state in which a walk ends stands for the states to which paths lead along the same word. -/
theorem walk_ofNfa {nfa : Nfa} (hintact : nfa.Intact) :
    ∃ dfa, ofNfa nfa none = .ok dfa ∧ ∀ word, ∃ reached, dfa.walk word = .ok reached ∧
      (reached.isSome ↔ ∃ id, nfa.Path nfa.start word id) ∧
      ∀ index, reached = some index → ∃ state ids, dfa.state? index = .ok state ∧
        state.nfaStates = some ids ∧ ids.Pairwise (· < ·) ∧
        (∀ id, id ∈ ids ↔ nfa.Path nfa.start word id) ∧
        (state.accepting ↔ ∃ id, nfa.Path nfa.start word id ∧ nfa.isAccepting id) := by
  obtain ⟨symbols, whole, first, exploration, hcollects, hascending, hwithin, hmem, hcomplete,
    hmade⟩ := ofNfa_eq hintact
  have hnonempty : first ≠ [] := List.ne_nil_of_mem ((hmem nfa.start).2 (.nil _))
  have htransitions : ∀ number key table,
      (subsetState nfa number key table).transitions = table :=
    fun _ _ _ => rfl
  have hthreads : ∀ {word : List String} {id : Int},
      (∃ before ∈ first, Threads nfa.Reads before word id) ↔ nfa.Path nfa.start word id := by
    intro word id
    simp only [hmem]
    exact threads_reads_iff
  refine ⟨_, hmade, fun word => ?_⟩
  obtain ⟨reached, hwalk, hsome, hstate⟩ := walk_of_collects hcollects hascending hwithin
    hnonempty hcomplete htransitions symbols word
  simp only [hthreads] at hsome hstate
  refine ⟨reached, hwalk, hsome, fun index hindex => ?_⟩
  obtain ⟨ids, table, hfound, hids, hpath⟩ := hstate index hindex
  refine ⟨_, ids, hfound, rfl, hids, hpath, ?_⟩
  simp only [subsetState, List.any_eq_true, hpath]

/-- The walk on a word breaks off if the word leads to no state.  Otherwise it ends in the state
that stands for all states to which the word leads, and accepts if one of them does. -/
theorem ofNfa_exact {nfa : Nfa} (hintact : nfa.Intact) :
    ∃ dfa, ofNfa nfa none = .ok dfa ∧
      (∀ word, ∃ reached, dfa.walk word = .ok reached ∧
        (reached.isSome ↔ ∃ id, nfa.Path nfa.start word id) ∧
        ∀ index, reached = some index → ∃ state ids, dfa.state? index = .ok state ∧
          state.nfaStates = some ids ∧ ids.Pairwise (· < ·) ∧
          (∀ id, id ∈ ids ↔ nfa.Path nfa.start word id) ∧
          (state.accepting ↔ ∃ id, nfa.Path nfa.start word id ∧ nfa.isAccepting id)) ∧
      ∀ text,
        (dfa.accepts text = .ok true ↔
          ∃ id, nfa.Path nfa.start (symbolsOf text) id ∧ nfa.isAccepting id) ∧
        (dfa.accepts text = .ok false ↔
          ¬ ∃ id, nfa.Path nfa.start (symbolsOf text) id ∧ nfa.isAccepting id) := by
  obtain ⟨dfa, hmade, hwalks⟩ := walk_ofNfa hintact
  refine ⟨dfa, hmade, hwalks, fun text => ?_⟩
  obtain ⟨reached, hwalk, hsome, hstate⟩ := hwalks (symbolsOf text)
  rw [accepts_eq_acceptsWord, acceptsWord_eq hwalk]
  cases reached with
  | none =>
    have hnever : ¬ ∃ id, nfa.Path nfa.start (symbolsOf text) id ∧ nfa.isAccepting id := by
      rintro ⟨id, hpath, -⟩
      cases hsome.2 ⟨id, hpath⟩
    simp [hnever]
  | some index =>
    obtain ⟨state, ids, hfound, -, -, -, haccepting⟩ := hstate index rfl
    rw [← haccepting, Option.elim_some, hfound]
    cases haccepts : state.accepting <;> simp [haccepts]

/-- Two silent moves in a circle, two accepting states and one that is out of reach. -/
def circleNfa : Nfa where
  states := #[.link "a" 2 (.link epsilon 1 { id := 0 }), .link epsilon 0 { id := 1 },
    .accept (.link "b" 3 (.link "b" 0 { id := 2 })), .accept { id := 3 }, .link "b" 2 { id := 4 }]
  start := 0
  finish := 3

theorem ofNfa_exact_circleNfa :
    circleNfa.Intact ∧ ∃ dfa, ofNfa circleNfa none = .ok dfa ∧
      (∀ word, ∃ reached, dfa.walk word = .ok reached ∧
        (reached.isSome ↔ ∃ id, circleNfa.Path circleNfa.start word id) ∧
        ∀ index, reached = some index → ∃ state ids, dfa.state? index = .ok state ∧
          state.nfaStates = some ids ∧ ids.Pairwise (· < ·) ∧
          (∀ id, id ∈ ids ↔ circleNfa.Path circleNfa.start word id) ∧
          (state.accepting ↔
            ∃ id, circleNfa.Path circleNfa.start word id ∧ circleNfa.isAccepting id)) ∧
      ∀ text,
        (dfa.accepts text = .ok true ↔ ∃ id,
          circleNfa.Path circleNfa.start (symbolsOf text) id ∧ circleNfa.isAccepting id) ∧
        (dfa.accepts text = .ok false ↔ ¬ ∃ id,
          circleNfa.Path circleNfa.start (symbolsOf text) id ∧ circleNfa.isAccepting id) :=
  have hintact : circleNfa.Intact := intact_of_targets (by decide) (by decide)
  ⟨hintact, ofNfa_exact hintact⟩

end Dfa
end RegexAutomata
