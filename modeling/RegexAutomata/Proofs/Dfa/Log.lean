import RegexAutomata.Proofs.Dfa.Draft
import RegexAutomata.Proofs.Position.FollowTable

/-!
# What the log of the direct construction says

For the table of a marked expression the log is made without failure, and each of its entries is
known: which positions carry the symbol, what follows them, and where the row of the search leads.
-/

namespace RegexAutomata.TraceStep

variable {marked : MarkedRegex} {symbols : List String} {key : List Position}

/-- The entry for a symbol at the state of a set, unless no position of the set carries the
symbol. -/
def transitionOf? (marked : MarkedRegex) (number : Nat) (key : List Position) (symbol : String)
    (target : Option Nat) (fresh : Bool) : Option TraceStep :=
  let carrying := marked.carrying key symbol
  if carrying.isEmpty then none
  else some (.transition number symbol carrying
    (Ascending.unions (carrying.map marked.followers)) target fresh)

/-- The entries for the row of edges that leave the state of a set. -/
def rowEntries (marked : MarkedRegex) (symbols : List String) (number : Nat) (key : List Position)
    (row : List Discovery) : List TraceStep :=
  symbols.filterMap fun symbol =>
    let edge := Discovery.ofSymbol? row symbol
    transitionOf? marked number key symbol (edge.map Discovery.target) (edge.any Discovery.fresh)

def allEntries (marked : MarkedRegex) (symbols : List String) (start : Nat)
    (entries : List (List Position × List Discovery)) : List TraceStep :=
  (entries.zipIdx start).flatMap fun entry =>
    .state entry.2 entry.1.1 :: rowEntries marked symbols entry.2 entry.1.1 entry.1.2

section Entries

variable {number start : Nat} {symbol : String} {target : Option Nat} {fresh : Bool}
  {row : List Discovery}

theorem transitionOf?_of_nil (hnone : marked.carrying key symbol = []) :
    transitionOf? marked number key symbol target fresh = none := by
  rw [transitionOf?, hnone]
  rfl

theorem transitionOf?_of_ne_nil (hsome : marked.carrying key symbol ≠ []) :
    transitionOf? marked number key symbol target fresh =
      some (.transition number symbol (marked.carrying key symbol)
        (Ascending.unions ((marked.carrying key symbol).map marked.followers)) target fresh) := by
  have hempty : (marked.carrying key symbol).isEmpty = false := List.isEmpty_eq_false_iff.2 hsome
  simp only [transitionOf?, hempty]
  rfl

theorem rowEntries_cons_of_nil (hnone : marked.carrying key symbol = []) :
    rowEntries marked (symbol :: symbols) number key row =
      rowEntries marked symbols number key row :=
  List.filterMap_cons_none (transitionOf?_of_nil hnone)

theorem rowEntries_cons_of_ne_nil (hsome : marked.carrying key symbol ≠ []) :
    rowEntries marked (symbol :: symbols) number key row =
      .transition number symbol (marked.carrying key symbol)
          (Ascending.unions ((marked.carrying key symbol).map marked.followers))
          ((Discovery.ofSymbol? row symbol).map Discovery.target)
          ((Discovery.ofSymbol? row symbol).any Discovery.fresh) ::
        rowEntries marked symbols number key row :=
  List.filterMap_cons_some (transitionOf?_of_ne_nil hsome)

theorem allEntries_cons (entry : List Position × List Discovery)
    (rest : List (List Position × List Discovery)) :
    allEntries marked symbols start (entry :: rest) =
      .state start entry.1 :: (rowEntries marked symbols start entry.1 entry.2 ++
        allEntries marked symbols (start + 1) rest) := rfl

end Entries

section Members

variable {number start : Nat} {row : List Discovery} {step : TraceStep}
  {entries : List (List Position × List Discovery)}

theorem exists_of_mem_rowEntries (hstep : step ∈ rowEntries marked symbols number key row) :
    ∃ symbol ∈ symbols, marked.carrying key symbol ≠ [] ∧
      step = .transition number symbol (marked.carrying key symbol)
        (Ascending.unions ((marked.carrying key symbol).map marked.followers))
        (Table.value? symbol (row.map fun edge => (edge.symbol, edge.target)))
        ((Discovery.ofSymbol? row symbol).any Discovery.fresh) := by
  obtain ⟨symbol, hsymbol, hentry⟩ := List.mem_filterMap.1 hstep
  by_cases hcarrying : marked.carrying key symbol = []
  · rw [transitionOf?_of_nil hcarrying] at hentry
    cases hentry
  · rw [transitionOf?_of_ne_nil hcarrying, Discovery.target_ofSymbol?] at hentry
    exact ⟨symbol, hsymbol, hcarrying, (Option.some.inj hentry).symm⟩

/-- Every entry names the state of some set or belongs to its row. -/
theorem exists_of_mem_allEntries (hstep : step ∈ allEntries marked symbols start entries) :
    ∃ entry ∈ entries, ∃ number, step = .state number entry.1 ∨
      step ∈ rowEntries marked symbols number entry.1 entry.2 := by
  obtain ⟨⟨entry, number⟩, hentry, hown⟩ := List.mem_flatMap.1 hstep
  exact ⟨entry, List.fst_mem_of_mem_zipIdx hentry, number, List.mem_cons.1 hown⟩

theorem empty_not_mem_allEntries : TraceStep.empty ∉ allEntries marked symbols start entries := by
  intro hempty
  obtain ⟨entry, -, number, hstate | hrowEntry⟩ := exists_of_mem_allEntries hempty
  · cases hstate
  · obtain ⟨symbol, -, -, hmade⟩ := exists_of_mem_rowEntries hrowEntry
    cases hmade

end Members

/-- For positions of the expression every look at the table succeeds, so that the log can be written
down from the expression. -/
theorem transitions_ofMarked (hdistinct : marked.Distinct) (hkey : key ⊆ marked.positions)
    (number : Nat) (row : List Discovery) :
    transitions (.ofMarked marked) number key row symbols =
      .ok (rowEntries marked symbols number key row) := by
  induction symbols with
  | nil => rfl
  | cons symbol symbols ih =>
    have hcarrying := List.Subset.trans (marked.carrying_subset key symbol) hkey
    rw [transitions, FollowTable.contributing_ofMarked hdistinct hkey]
    simp only [FollowTable.followersOfAll_ofMarked hcarrying, ih, bind, Except.bind]
    by_cases hnone : marked.carrying key symbol = []
    · rw [rowEntries_cons_of_nil hnone, hnone]
      rfl
    · rw [rowEntries_cons_of_ne_nil hnone, if_neg (by simpa using hnone)]
      rfl

theorem statesFrom_ofMarked (hdistinct : marked.Distinct)
    {entries : List (List Position × List Discovery)}
    (hentries : ∀ entry ∈ entries, entry.1 ⊆ marked.positions) (start : Nat) :
    statesFrom (.ofMarked marked) symbols start entries =
      .ok (allEntries marked symbols start entries) := by
  induction entries generalizing start with
  | nil => rfl
  | cons entry rest ih =>
    rw [List.forall_mem_cons] at hentries
    rw [statesFrom, transitions_ofMarked hdistinct hentries.1, ih hentries.2, allEntries_cons]
    rfl

/-- What a search through sets of positions tells. -/
theorem ofExploration_ofMarked (hdistinct : marked.Distinct)
    {exploration : Exploration (List Position)}
    (hkeys : ∀ number key, exploration.found.key? number = some key → key ⊆ marked.positions) :
    ofExploration (.ofMarked marked) symbols exploration =
      .ok (.initial marked.first :: allEntries marked symbols 0 exploration.expanded) := by
  have hentries : ∀ entry ∈ exploration.expanded, entry.1 ⊆ marked.positions := by
    intro entry hentry
    obtain ⟨number, hnumber, rfl⟩ := List.mem_mapIdx.1 (List.mem_of_mem_take hentry)
    exact hkeys number _ (Array.getElem?_eq_getElem hnumber)
  rw [ofExploration, statesFrom_ofMarked hdistinct hentries]
  rfl

end RegexAutomata.TraceStep
