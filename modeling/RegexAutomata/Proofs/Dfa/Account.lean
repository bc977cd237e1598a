import RegexAutomata.Proofs.Dfa.Alphabet
import RegexAutomata.Proofs.Dfa.Representation
import RegexAutomata.Proofs.Position.Rows

/-!
# The log of the direct construction is a full account

The log tells of every state in order and of every symbol that some position of the state carries,
and it says where the transition leads.  Nothing of the automaton is missing from it, so that the
automaton can be made again from the log alone: the highest position in it is that of the end
marker, since every position belongs to some state.
-/

namespace RegexAutomata

open Exploration

namespace TraceStep

/-- What a log is to say of a state: its set and, for each symbol of the alphabet that some position
of the set carries, what follows and where the transition leads. -/
def accountOf (marked : MarkedRegex) (alphabet : List String) (isNew : Nat → String → Bool)
    (state : Dfa.State) : List TraceStep :=
  let key := state.positions.getD []
  .state state.id key :: alphabet.filterMap fun symbol =>
    transitionOf? marked state.id key symbol (Table.value? symbol state.transitions)
      (isNew state.id symbol)

/-- What a log is to say of an automaton: the set of the first state, and then all states. -/
def account (marked : MarkedRegex) (dfa : Dfa) (isNew : Nat → String → Bool) : List TraceStep :=
  .initial ((dfa.states[0]?.bind Dfa.State.positions).getD []) ::
    dfa.states.toList.flatMap (accountOf marked dfa.alphabet isNew)

/-- Where a transition leads that is marked as the first to lead there. -/
def freshTarget? : TraceStep → Option (Option Nat)
  | transition _ _ _ _ target fresh => if fresh then some target else none
  | _ => none

def symbol? : TraceStep → Option String
  | transition _ symbol _ _ _ _ => some symbol
  | _ => none

def statePositions : TraceStep → List Position
  | state _ positions => positions
  | _ => []

/-- The start of the automaton is the state of the first set.  Every transition of the log leads to
the state of the set of all that follows, unless nothing follows. -/
structure LeadsWithin (trace : List TraceStep) (dfa : Dfa) (first : List Position) : Prop where
  start : dfa.start = some 0
  first_state : ∃ state, dfa.states[0]? = some state ∧ state.positions = some first
  target : ∀ number symbol contributing result target fresh,
    .transition number symbol contributing result (some target) fresh ∈ trace →
      ∃ state, dfa.states[target]? = some state ∧ state.positions = some result
  nowhere : ∀ number symbol contributing result fresh,
    .transition number symbol contributing result none fresh ∈ trace → result = []

end TraceStep

namespace Dfa

/-- Reads a log backwards: the transitions that no state has claimed yet, and the states.  The state
to which they belong stands before its transitions in the log. -/
def readStep (finish : Position) (step : TraceStep) (read : Table String Nat × List State) :
    Table String Nat × List State :=
  match step with
  | .state id positions =>
    let accepting := positions.contains finish
    ([], { id, accepting, transitions := read.1, positions := some positions } :: read.2)
  | .transition _ symbol _ _ (some target) _ => ((symbol, target) :: read.1, read.2)
  | _ => read

/-- The automaton that a log tells of. -/
def ofTrace (trace : List TraceStep) : Dfa :=
  let finish := (trace.flatMap TraceStep.statePositions).max?.getD 0
  let states := (trace.foldr (readStep finish) ([], [])).2
  ofStates states.toArray (Ascending.ofList (trace.filterMap TraceStep.symbol?)) 0

end Dfa

namespace TraceStep

variable {marked : MarkedRegex} {symbols : List String} {key : List Position}
  {row : List Discovery} {number start : Nat} {target : Option Nat} {symbol : String}
  {fresh : Bool}

/-- A row has its edges in the order of the alphabet, each for a symbol that the set carries. -/
structure Covers (marked : MarkedRegex) (symbols : List String) (key : List Position)
    (row : List Discovery) : Prop where
  filterMap_eq : symbols.filterMap (Discovery.ofSymbol? row) = row
  carried : ∀ symbol edge, Discovery.ofSymbol? row symbol = some edge →
    marked.carrying key symbol ≠ []

section Fresh

/-- The log marks as new just what the search has found as new. -/
theorem freshTargets_rowEntries (hcovers : Covers marked symbols key row) :
    (rowEntries marked symbols number key row).filterMap freshTarget? =
      (row.filterMap Discovery.freshTarget?).map some := by
  have hentry : ∀ symbol ∈ symbols,
      (transitionOf? marked number key symbol
          ((Discovery.ofSymbol? row symbol).map Discovery.target)
          ((Discovery.ofSymbol? row symbol).any Discovery.fresh)).bind freshTarget? =
        ((Discovery.ofSymbol? row symbol).bind Discovery.freshTarget?).map some := by
    intro symbol _
    by_cases hcarrying : marked.carrying key symbol = []
    · have hedge : Discovery.ofSymbol? row symbol = none := by
        rw [Option.eq_none_iff_forall_ne_some]
        exact fun edge hedge => hcovers.carried symbol edge hedge hcarrying
      rw [transitionOf?_of_nil hcarrying, hedge]
      rfl
    · rw [transitionOf?_of_ne_nil hcarrying, ← Discovery.freshTarget?_ofSymbol?]
      rfl
  calc (rowEntries marked symbols number key row).filterMap freshTarget?
      = symbols.filterMap fun symbol =>
          ((Discovery.ofSymbol? row symbol).bind Discovery.freshTarget?).map some := by
        rw [rowEntries, List.filterMap_filterMap]
        exact List.filterMap_congr hentry
    _ = ((symbols.filterMap (Discovery.ofSymbol? row)).filterMap Discovery.freshTarget?).map
          some := by
        rw [List.filterMap_filterMap, List.map_filterMap]
    _ = (row.filterMap Discovery.freshTarget?).map some := by rw [hcovers.filterMap_eq]

theorem freshTargets_allEntries {entries : List (List Position × List Discovery)}
    (hcovers : ∀ entry ∈ entries, Covers marked symbols entry.1 entry.2) :
    (allEntries marked symbols start entries).filterMap freshTarget? =
      ((entries.map Prod.snd).flatMap fun row => row.filterMap Discovery.freshTarget?).map
        some := by
  induction entries generalizing start with
  | nil => rfl
  | cons entry rest ih =>
    rw [List.forall_mem_cons] at hcovers
    rw [allEntries_cons, List.filterMap_cons_none rfl, List.filterMap_append,
      freshTargets_rowEntries hcovers.1, ih hcovers.2, List.map_cons, List.flatMap_cons,
      List.map_append]

end Fresh

section Rebuilt

variable {finish : Position} {states : List Dfa.State}

/-- Reading the entries of a row backwards collects its transitions. -/
theorem foldr_rowEntries (hcovers : Covers marked symbols key row) :
    (rowEntries marked symbols number key row).foldr (Dfa.readStep finish) ([], states) =
      (row.map fun edge => (edge.symbol, edge.target), states) := by
  have hfound : ∀ found : List String,
      (rowEntries marked found number key row).foldr (Dfa.readStep finish) ([], states) =
        ((found.filterMap (Discovery.ofSymbol? row)).map fun edge => (edge.symbol, edge.target),
          states) := by
    intro found
    induction found with
    | nil => rfl
    | cons symbol found ih =>
      cases hedge : Discovery.ofSymbol? row symbol with
      | none =>
        rw [List.filterMap_cons_none hedge]
        by_cases hcarrying : marked.carrying key symbol = []
        · rw [rowEntries_cons_of_nil hcarrying]
          exact ih
        · -- a transition that leads nowhere is passed over
          rw [rowEntries_cons_of_ne_nil hcarrying, hedge, List.foldr_cons, ih]
          rfl
      | some edge =>
        obtain rfl : edge.symbol = symbol := Discovery.symbol_of_ofSymbol? hedge
        rw [rowEntries_cons_of_ne_nil (hcovers.carried _ edge hedge), hedge, List.foldr_cons, ih,
          List.filterMap_cons_some hedge]
        rfl
  rw [hfound, hcovers.filterMap_eq]

/-- Reading all entries backwards gives the states. -/
theorem foldr_allEntries {entries : List (List Position × List Discovery)}
    (hcovers : ∀ entry ∈ entries, Covers marked symbols entry.1 entry.2) :
    (allEntries marked symbols start entries).foldr (Dfa.readStep finish) ([], []) =
      ([], (entries.zipIdx start).map fun entry =>
        { id := entry.2
          accepting := entry.1.1.contains finish
          transitions := entry.1.2.map fun edge => (edge.symbol, edge.target)
          positions := some entry.1.1 }) := by
  induction entries generalizing start with
  | nil => rfl
  | cons entry rest ih =>
    rw [List.forall_mem_cons] at hcovers
    rw [allEntries_cons, List.foldr_cons, List.foldr_append, ih hcovers.2,
      foldr_rowEntries hcovers.1]
    rfl

end Rebuilt

section Contents

theorem symbols_rowEntries :
    (rowEntries marked symbols number key row).filterMap symbol? =
      symbols.filter fun symbol => marked.carrying key symbol ≠ [] := by
  induction symbols with
  | nil => rfl
  | cons symbol symbols ih =>
    by_cases hcarrying : marked.carrying key symbol = []
    · rw [rowEntries_cons_of_nil hcarrying, List.filter_cons_of_neg (by simpa using hcarrying), ih]
    · rw [rowEntries_cons_of_ne_nil hcarrying, List.filter_cons_of_pos (by simpa using hcarrying),
        ← ih]
      rfl

theorem statePositions_rowEntries :
    (rowEntries marked symbols number key row).flatMap statePositions = [] := by
  induction symbols with
  | nil => rfl
  | cons symbol symbols ih =>
    by_cases hcarrying : marked.carrying key symbol = []
    · rw [rowEntries_cons_of_nil hcarrying, ih]
    · rw [rowEntries_cons_of_ne_nil hcarrying, List.flatMap_cons, ih]
      rfl

variable {entries : List (List Position × List Discovery)}

theorem symbols_allEntries :
    (allEntries marked symbols start entries).filterMap symbol? =
      entries.flatMap fun entry =>
        symbols.filter fun symbol => marked.carrying entry.1 symbol ≠ [] := by
  induction entries generalizing start with
  | nil => rfl
  | cons entry rest ih =>
    rw [allEntries_cons, List.filterMap_cons_none rfl, List.filterMap_append, symbols_rowEntries,
      ih, List.flatMap_cons]

theorem statePositions_allEntries :
    (allEntries marked symbols start entries).flatMap statePositions =
      entries.flatMap Prod.fst := by
  induction entries generalizing start with
  | nil => rfl
  | cons entry rest ih =>
    rw [allEntries_cons, List.flatMap_cons, List.flatMap_append, statePositions_rowEntries, ih,
      List.flatMap_cons, List.nil_append]
    rfl

end Contents

end TraceStep

namespace FollowTable

open MarkedRegex TraceStep

section Search

variable {marked : MarkedRegex} {finish : Position} {exploration : Exploration (List Position)}
  (hdistinct : (marked.ended finish).Distinct)
  (hfinish : finish = (marked.ended finish).leaves.length)
  (hcomplete : Complete (ofMarked (marked.ended finish)).step
    (ofMarked (marked.ended finish)).alphabet (marked.ended finish).first exploration)
  (hkeys : ∀ number key, exploration.found.key? number = some key →
    key ⊆ (marked.ended finish).positions)

include hdistinct hfinish hcomplete

/-- Every position of the tree belongs to the set of some state. -/
theorem exists_entry {position : Position}
    (hposition : position ∈ (marked.ended finish).positions) :
    ∃ entry ∈ exploration.entries, position ∈ entry.1 := by
  obtain ⟨before, hbefore, word, hthreads⟩ := exists_threads_first hdistinct hposition
  obtain ⟨key, hleads, hmem⟩ :=
    ((collects_ofMarked hdistinct hfinish).exists_leads_mem_iff
      (marked.ended finish).first_within).2 ⟨before, hbefore, hthreads⟩
  obtain ⟨number, hnumber⟩ := hcomplete.exists_number hcomplete.first_key hleads
  refine ⟨(key, exploration.rows[number]?.getD []), ?_, hmem⟩
  obtain ⟨hbound, rfl⟩ := Array.getElem?_eq_some_iff.1 hnumber
  exact List.mem_mapIdx.2 ⟨number, hbound, rfl⟩

/-- Every symbol of the alphabet is carried by the set of some state. -/
theorem alphabet_of_carried :
    Ascending.ofList (exploration.entries.flatMap fun entry =>
      (ofMarked (marked.ended finish)).alphabet.filter fun symbol =>
        (marked.ended finish).carrying entry.1 symbol ≠ []) =
      (ofMarked (marked.ended finish)).alphabet := by
  have hascending : (ofMarked (marked.ended finish)).alphabet.Pairwise (· < ·) :=
    Ascending.pairwise_ofList _
  apply (Ascending.pairwise_ofList _).eq_of_mem_iff hascending
  intro symbol
  simp only [Ascending.mem_ofList, List.mem_flatMap, List.mem_filter, decide_eq_true_iff]
  constructor
  · rintro ⟨entry, -, hsymbol, -⟩
    exact hsymbol
  · intro hsymbol
    obtain ⟨position, hleaf, -⟩ := mem_alphabet_ofMarked.1 hsymbol
    obtain ⟨entry, hentry, hmem⟩ :=
      exists_entry hdistinct hfinish hcomplete (mem_positions_of_mem_leaves hleaf)
    exact ⟨entry, hentry, hsymbol, List.ne_nil_of_mem (mem_carrying.2 ⟨hmem, hleaf⟩)⟩

include hkeys

/-- The rows of the search lead by symbols that some position of the set carries. -/
theorem covers_of_mem {entry : List Position × List Discovery}
    (hentry : entry ∈ exploration.entries) :
    Covers (marked.ended finish) (ofMarked (marked.ended finish)).alphabet entry.1 entry.2 := by
  obtain ⟨key, row⟩ := entry
  obtain ⟨number, hkey, hrowOf⟩ := hcomplete.of_mem_entries hentry
  have hcollects := collects_ofMarked hdistinct hfinish
  constructor
  · have hascending : (ofMarked (marked.ended finish)).alphabet.Pairwise (· < ·) :=
      Ascending.pairwise_ofList _
    exact hrowOf.filterMap_ofSymbol? (hascending.imp fun hless => Std.ne_of_lt hless)
  · intro symbol edge hedge
    have htarget := Discovery.target_ofSymbol? row symbol
    rw [hedge] at htarget
    obtain ⟨hsymbol, next, hstep, -⟩ := hrowOf.value?_eq_some_iff.1 htarget.symm
    have hinside : ∀ id ∈ key, id ∈ (marked.ended finish).positions.toFinset :=
      fun id hid => List.mem_toFinset.2 (hkeys number _ hkey hid)
    obtain ⟨-, hnonempty, -, hmem⟩ := hcollects.of_step hinside hsymbol hstep
    obtain ⟨id, hid⟩ := List.exists_mem_of_ne_nil next hnonempty
    obtain ⟨before, hbefore, hleaf, -⟩ := (hmem id).1 hid
    exact List.ne_nil_of_mem (mem_carrying.2 ⟨hbefore, hleaf⟩)

/-- The highest position in the log is that of the end marker. -/
theorem max?_statePositions
    (hpositions : (marked.ended finish).positions =
      consecutive 0 (marked.ended finish).leaves.length) :
    (exploration.entries.flatMap Prod.fst).max? = some finish := by
  rw [List.max?_eq_some_iff]
  constructor
  · obtain ⟨entry, hentry, hmem⟩ :=
      exists_entry hdistinct hfinish hcomplete (mem_positions_ended.2 (Or.inr rfl))
    exact List.mem_flatMap.2 ⟨entry, hentry, hmem⟩
  · intro position hposition
    obtain ⟨entry, hentry, hmem⟩ := List.mem_flatMap.1 hposition
    obtain ⟨number, hbound, rfl⟩ := List.mem_mapIdx.1 hentry
    have hinside := hkeys number _ (Array.getElem?_eq_getElem hbound) hmem
    rw [hpositions] at hinside
    obtain ⟨index, hindex, rfl⟩ := List.mem_map.1 hinside
    rw [List.mem_range] at hindex
    calc 0 + 1 + (index : Int)
        ≤ (marked.ended finish).leaves.length := by omega
      _ = finish := hfinish.symm

/-- The automaton is made again from the log. -/
theorem ofTrace_allEntries
    (hpositions : (marked.ended finish).positions =
      consecutive 0 (marked.ended finish).leaves.length) :
    Dfa.ofTrace (.initial (marked.ended finish).first ::
        allEntries (marked.ended finish) (ofMarked (marked.ended finish)).alphabet 0
          exploration.entries) =
      Dfa.ofExploration exploration (ofMarked (marked.ended finish)).alphabet
        (ofMarked (marked.ended finish)).stateOf := by
  have hcovers : ∀ entry ∈ exploration.entries, Covers (marked.ended finish)
      (ofMarked (marked.ended finish)).alphabet entry.1 entry.2 :=
    fun entry hentry => covers_of_mem hdistinct hfinish hcomplete hkeys hentry
  have hhighest := max?_statePositions hdistinct hfinish hcomplete hkeys hpositions
  have hend : (ofMarked (marked.ended finish)).endPosition = finish := hfinish.symm
  have hfirst : statePositions (.initial (marked.ended finish).first) = [] := rfl
  rw [Dfa.ofTrace, List.flatMap_cons, hfirst, List.nil_append, statePositions_allEntries, hhighest,
    Option.getD_some, List.foldr_cons, foldr_allEntries hcovers, List.filterMap_cons_none rfl,
    symbols_allEntries, alphabet_of_carried hdistinct hfinish hcomplete, Dfa.ofExploration,
    List.mapIdx_eq_zipIdx_map]
  simp only [Dfa.readStep, stateOf, hend]

/-- The fresh transitions of the log lead to all states but the first one, in order. -/
theorem freshTargets_log {fuel : Nat}
    (hrun : run (ofMarked (marked.ended finish)).step none (ofMarked (marked.ended finish)).alphabet
      fuel (marked.ended finish).first = .ok exploration) :
    (allEntries (marked.ended finish) (ofMarked (marked.ended finish)).alphabet 0
        exploration.entries).filterMap freshTarget? =
      (List.range' 1 (exploration.found.size - 1)).map some := by
  rw [freshTargets_allEntries fun entry hentry =>
    covers_of_mem hdistinct hfinish hcomplete hkeys hentry, hcomplete.rows_eq_entries,
    ← freshTargets_run hrun]
  rfl

omit hfinish in
/-- A transition of the log leads where the search finds the set of all that follows. -/
theorem of_transition {number : Nat} {symbol : String} {contributing result : List Position}
    {target : Option Nat} {fresh : Bool}
    (hstep : .transition number symbol contributing result target fresh ∈
      TraceStep.initial (marked.ended finish).first ::
        allEntries (marked.ended finish) (ofMarked (marked.ended finish)).alphabet 0
          exploration.entries) :
    (∀ index, target = some index → exploration.found.key? index = some result) ∧
      (target = none → result = []) := by
  have hlater := List.mem_of_ne_of_mem TraceStep.noConfusion hstep
  obtain ⟨⟨key, row⟩, hentry, own, hstate | hrowEntry⟩ := exists_of_mem_allEntries hlater
  · cases hstate
  obtain ⟨other, hsymbol, -, hmade⟩ := exists_of_mem_rowEntries hrowEntry
  obtain ⟨-, rfl, rfl, rfl, rfl, -⟩ := TraceStep.transition.inj hmade
  obtain ⟨place, hkey, hrowOf⟩ := hcomplete.of_mem_entries hentry
  have hinside := hkeys place key hkey
  have hcarrying := List.Subset.trans ((marked.ended finish).carrying_subset key symbol) hinside
  have hfollows := step_eq (contributing_ofMarked hdistinct hinside symbol)
    (followersOfAll_ofMarked hcarrying)
  constructor
  · intro index hindex
    obtain ⟨-, next, hnext, hnumber⟩ := hrowOf.value?_eq_some_iff.1 hindex
    rw [hfollows, Except.ok.injEq] at hnext
    split at hnext
    · cases hnext
    · cases hnext
      exact hnumber
  · intro hnone
    by_contra hsomewhere
    rw [if_neg fun hempty => hsomewhere (List.isEmpty_iff.1 hempty)] at hfollows
    obtain ⟨index, hindex⟩ := hrowOf.exists_key hsymbol hfollows
    have hleads := hrowOf.value?_eq_some_iff.2 ⟨hsymbol, _, hfollows, hindex⟩
    cases hnone.symm.trans hleads

omit hfinish in
/-- The log of a complete search leads within the automaton that is made of it. -/
theorem leadsWithin_ofExploration :
    LeadsWithin (.initial (marked.ended finish).first ::
        allEntries (marked.ended finish) (ofMarked (marked.ended finish)).alphabet 0
          exploration.entries)
      (Dfa.ofExploration exploration (ofMarked (marked.ended finish)).alphabet
        (ofMarked (marked.ended finish)).stateOf)
      (marked.ended finish).first := by
  have hstate : ∀ number key, exploration.found.key? number = some key → ∃ state,
      (Dfa.ofExploration exploration (ofMarked (marked.ended finish)).alphabet
        (ofMarked (marked.ended finish)).stateOf).states[number]? = some state ∧
      state.positions = some key := by
    intro number key hkey
    rw [Dfa.getElem?_states_ofExploration, hkey]
    exact ⟨_, rfl, rfl⟩
  constructor
  case start => exact Dfa.start_ofExploration hcomplete.first_key
  case first_state => exact hstate 0 _ hcomplete.first_key
  case target =>
    intro number symbol contributing result target fresh hstep
    exact hstate target result
      ((of_transition hdistinct hcomplete hkeys hstep).1 target rfl)
  case nowhere =>
    intro number symbol contributing result fresh hstep
    exact (of_transition hdistinct hcomplete hkeys hstep).2 rfl

end Search

/-- The states of the automaton by number. -/
theorem states_ofExploration (table : FollowTable) (symbols : List String)
    (exploration : Exploration (List Position)) :
    (Dfa.ofExploration exploration symbols table.stateOf).states.toList =
      exploration.entries.zipIdx.map fun entry => table.stateOf entry.2 entry.1.1
        (entry.1.2.map fun edge => (edge.symbol, edge.target)) := by
  rw [Dfa.ofExploration, Dfa.ofStates, List.mapIdx_eq_zipIdx_map]

theorem ids_ofExploration (table : FollowTable) (symbols : List String)
    (exploration : Exploration (List Position)) :
    (Dfa.ofExploration exploration symbols table.stateOf).states.toList.map Dfa.State.id =
      List.range (Dfa.ofExploration exploration symbols table.stateOf).states.size := by
  have hsize : exploration.entries.length =
      (Dfa.ofExploration exploration symbols table.stateOf).states.size := by
    rw [← Array.length_toList, states_ofExploration, List.length_map, List.length_zipIdx]
  rw [states_ofExploration, List.map_map, ← hsize, List.range_eq_range',
    ← List.zipIdx_map_snd 0 exploration.entries]
  rfl

/-- The log of a search is an account of its automaton. -/
theorem exists_account (marked : MarkedRegex) (symbols : List String) {first : List Position}
    {exploration : Exploration (List Position)} (hfirst : exploration.found.key? 0 = some first)
    (table : FollowTable) :
    ∃ isNew, .initial first :: allEntries marked symbols 0 exploration.entries =
      account marked (Dfa.ofExploration exploration symbols table.stateOf) isNew := by
  refine ⟨fun number symbol => (exploration.entries[number]?.bind fun entry =>
    Discovery.ofSymbol? entry.2 symbol).any Discovery.fresh, ?_⟩
  have hinitial : ((Dfa.ofExploration exploration symbols table.stateOf).states[0]?.bind
      Dfa.State.positions).getD [] = first := by
    rw [Dfa.getElem?_states_ofExploration, hfirst]
    rfl
  rw [account, hinitial, states_ofExploration, List.flatMap_map, allEntries]
  congr 1
  apply List.flatMap_congr
  intro entry hentry
  rw [List.mem_zipIdx_iff_getElem?] at hentry
  rw [accountOf, rowEntries]
  congr 1
  apply List.filterMap_congr
  intro symbol _
  simp only [stateOf, hentry, Option.bind_some, Discovery.target_ofSymbol?]
  rfl

end FollowTable

namespace Regex

open MarkedRegex FollowTable TraceStep

/-- The log that the direct construction from a tree of known nodes writes on its way is an account
of the automaton, for every symbol of the tree.  It starts with the set of the first state, and its
transitions lead to the states of what follows.  The entries that are marked as new lead to all
states but the first one, in order, and the automaton can be made again from the log. -/
theorem trace_exact {regex : Regex} (hknown : regex.isKnown) :
    ∃ dfa trace root, regex.direct none = .ok (dfa, trace) ∧ regex.marked = .ok root ∧
      dfa.states.toList.map Dfa.State.id = List.range dfa.states.size ∧
      dfa.alphabet = regex.alphabet ∧ dfa.alphabet.Pairwise (· < ·) ∧
      LeadsWithin trace dfa root.first ∧
      (∃ isNew, trace = account root dfa isNew) ∧
      trace.filterMap freshTarget? = (List.range' 1 (dfa.states.size - 1)).map some ∧
      Dfa.ofTrace trace = dfa := by
  obtain ⟨marked, finish, hmarked, rfl, hpositions, hfinish⟩ := marked_eq hknown
  have hdistinct := distinct_of_consecutive hpositions
  obtain ⟨exploration, hrun, hcomplete, hkeys, hdirect⟩ := run_ofMarked hdistinct hfinish rfl
  refine ⟨_, _, _, ?_, hmarked, ?_, ?_, ?_, leadsWithin_ofExploration hdistinct hcomplete hkeys,
    exists_account _ _ hcomplete.first_key _, ?_,
    ofTrace_allEntries hdistinct hfinish hcomplete hkeys hpositions⟩
  · exact (direct_of_marked hmarked none).trans hdirect
  · exact ids_ofExploration _ _ exploration
  · exact FollowTable.alphabet_ofMarked_ended hdistinct hfinish
  · exact Ascending.pairwise_ofList _
  · rw [List.filterMap_cons_none rfl, Dfa.size_states_ofExploration]
    exact freshTargets_log hdistinct hfinish hcomplete hkeys hrun

theorem trace_exact_repeated_marker :
    (Regex.concat (.star (.char "#")) (.char "a")).isKnown ∧
      ∃ dfa trace root,
        (Regex.concat (.star (.char "#")) (.char "a")).direct none = .ok (dfa, trace) ∧
          (Regex.concat (.star (.char "#")) (.char "a")).marked = .ok root ∧
          dfa.states.toList.map Dfa.State.id = List.range dfa.states.size ∧
          dfa.alphabet =
            (Regex.concat (.star (.char "#")) (.char "a")).alphabet ∧
          dfa.alphabet.Pairwise (· < ·) ∧ LeadsWithin trace dfa root.first ∧
          (∃ isNew, trace = account root dfa isNew) ∧
          trace.filterMap freshTarget? = (List.range' 1 (dfa.states.size - 1)).map some ∧
          Dfa.ofTrace trace = dfa :=
  ⟨rfl, trace_exact rfl⟩

end Regex
end RegexAutomata
