import RegexAutomata.Dfa.Direct
import RegexAutomata.Proofs.Dfa.Walk
import RegexAutomata.Proofs.Exploration.Queue

/-!
# The direct construction is a search

The direct construction makes its states, changes them, and writes its log on the way, with the
states that wait for their transitions in a queue.  At each point it stands where the search through
the sets of positions stands: the states are those of the keys found so far, the queue holds the
keys that are not expanded, and the log is what the expanded keys and their edges tell.  Both fail
for the same reason, if they do.
-/

namespace RegexAutomata

open Exploration

namespace TraceStep

/-- The entries for the transitions of one state, given the edges that a search has found.  A symbol
at no position of the set has no entry. -/
def transitions (table : FollowTable) (state : Nat) (key : List Position) (row : List Discovery) :
    List String → Except Failure (List TraceStep)
  | [] => .ok []
  | symbol :: symbols => do
    let contributing ← table.contributing key symbol
    let result ← table.followersOfAll contributing
    let others ← transitions table state key row symbols
    if contributing.isEmpty then return others
    let edge := Discovery.ofSymbol? row symbol
    return transition state symbol contributing result (edge.map Discovery.target)
      (edge.any Discovery.fresh) :: others

/-- The entries for all states from a given number on. -/
def statesFrom (table : FollowTable) (symbols : List String) (state : Nat) :
    List (List Position × List Discovery) → Except Failure (List TraceStep)
  | [] => .ok []
  | (key, row) :: rest => do
    let own ← transitions table state key row symbols
    let others ← statesFrom table symbols (state + 1) rest
    return .state state key :: own ++ others

/-- The log that the keys and edges of a search tell. -/
def ofExploration (table : FollowTable) (symbols : List String)
    (exploration : Exploration (List Position)) : Except Failure (List TraceStep) := do
  let steps ← statesFrom table symbols 0 exploration.expanded
  return initial table.first :: steps

section Read

variable {table : FollowTable} {symbols : List String} {number : Nat} {key : List Position}
  {row : List Discovery}

theorem transitions_of_none {symbol : String} (hnone : table.contributing key symbol = .ok []) :
    transitions table number key row (symbol :: symbols) =
      transitions table number key row symbols := by
  rw [transitions, hnone]
  exact bind_pure (transitions table number key row symbols)

theorem transitions_of_some {symbol : String} {contributing result : List Position}
    (hcontributing : table.contributing key symbol = .ok contributing)
    (hresult : table.followersOfAll contributing = .ok result) (hsome : contributing ≠ []) :
    transitions table number key row (symbol :: symbols) = (do
      let others ← transitions table number key row symbols
      let edge := Discovery.ofSymbol? row symbol
      return transition number symbol contributing result (edge.map Discovery.target)
        (edge.any Discovery.fresh) :: others) := by
  have hfilled := List.isEmpty_eq_false_iff.2 hsome
  rw [transitions, hcontributing]
  simp only [bind, Except.bind, hresult, hfilled, Bool.false_eq_true, if_false]

/-- An edge for another symbol tells nothing. -/
theorem transitions_cons {edge : Discovery} (hedge : edge.symbol ∉ symbols) :
    transitions table number key (edge :: row) symbols =
      transitions table number key row symbols := by
  induction symbols with
  | nil => rfl
  | cons symbol symbols ih =>
    rw [List.mem_cons, not_or] at hedge
    have hother : Discovery.ofSymbol? (edge :: row) symbol = Discovery.ofSymbol? row symbol :=
      List.find?_cons_of_neg (by simpa using hedge.1)
    rw [transitions, transitions, ih hedge.2, hother]

/-- The log of one state more comes after the logs of those before it. -/
theorem statesFrom_concat {entries : List (List Position × List Discovery)} {start : Nat} :
    statesFrom table symbols start (entries ++ [(key, row)]) = do
      let before ← statesFrom table symbols start entries
      let own ← transitions table (start + entries.length) key row symbols
      return before ++ .state (start + entries.length) key :: own := by
  induction entries generalizing start with
  | nil =>
    rw [List.nil_append, statesFrom, statesFrom, statesFrom]
    cases transitions table start key row symbols with
    | error failure => rfl
    | ok own => simp [bind, Except.bind, pure, Except.pure]
  | cons entry rest ih =>
    have hcount : start + 1 + rest.length = start + (rest.length + 1) := by omega
    rw [List.cons_append, statesFrom, statesFrom, ih, List.length_cons, hcount]
    cases transitions table start entry.1 entry.2 symbols with
    | error failure => rfl
    | ok first =>
      cases statesFrom table symbols (start + 1) rest with
      | error failure => rfl
      | ok before =>
        cases transitions table (start + (rest.length + 1)) key row symbols with
        | error failure => rfl
        | ok own => simp [bind, Except.bind, pure, Except.pure]

/-- Where a set can be expanded, its transitions can be told. -/
theorem exists_transitions {limit : Option Int} {found final : Numbering (List Position)}
    {made : List Discovery}
    (hexpand : expand table.step limit key symbols found = .ok (made, final))
    (row : List Discovery) : ∃ own, transitions table number key row symbols = .ok own := by
  induction symbols generalizing found made with
  | nil => exact ⟨[], rfl⟩
  | cons symbol symbols ih =>
    obtain ⟨next, hstep, -⟩ := Traversal.bind_eq_ok_iff.1 hexpand
    obtain ⟨contributing, hcontributing, hrest⟩ := Traversal.bind_eq_ok_iff.1 hstep
    obtain ⟨result, hresult, -⟩ := Traversal.bind_eq_ok_iff.1 hrest
    have hothers : ∃ others, transitions table number key row symbols = .ok others := by
      rcases expand_cons_eq_ok hexpand with
        ⟨-, hexpand⟩ | ⟨next, target, fresh, extended, rest, -, -, hexpand, -⟩
      · exact ih hexpand
      · exact ih hexpand
    obtain ⟨others, hothers⟩ := hothers
    by_cases hnone : contributing = []
    · subst hnone
      exact ⟨others, (transitions_of_none hcontributing).trans hothers⟩
    · rw [transitions_of_some hcontributing hresult hnone, hothers]
      exact ⟨_, rfl⟩

/-- What one more expanded key tells comes last. -/
theorem ofExploration_push {found extended : Numbering (List Position)}
    {rows : Array (List Discovery)} {log own : List TraceStep}
    (hkey : found.key? rows.size = some key) (hextends : found.Extends extended)
    (hlog : ofExploration table symbols ⟨found, rows⟩ = .ok log)
    (hown : transitions table rows.size key row symbols = .ok own) :
    ofExploration table symbols ⟨extended, rows.push row⟩ =
      .ok (log ++ .state rows.size key :: own) := by
  obtain ⟨steps, hsteps, hinitial⟩ := Traversal.bind_eq_ok_iff.1 hlog
  cases hinitial
  have hlength : (expanded ⟨found, rows⟩).length = rows.size :=
    length_expanded (Nat.le_of_lt (Numbering.lt_size_iff.2 ⟨key, hkey⟩))
  rw [ofExploration, expanded_push hkey hextends, statesFrom_concat, hsteps, hlength, Nat.zero_add,
    hown]
  rfl

end Read

end TraceStep

/-- A draft that has got as far as a search. -/
def Draft.ofExploration (table : FollowTable) (exploration : Exploration (List Position))
    (log : List TraceStep) : Draft where
  found := exploration.found
  states := (Dfa.ofExploration exploration [] table.stateOf).states
  queue := exploration.waiting
  log := log.toArray

namespace Draft

variable {table : FollowTable} {found extended : Numbering (List Position)}
  {rows : Array (List Discovery)} {row : List Discovery} {key : List Position}
  {exploration : Exploration (List Position)} {log : List TraceStep}

theorem note_ofExploration (step : TraceStep) :
    (ofExploration table exploration log).note step =
      ofExploration table exploration (log ++ [step]) := by
  simp [note, ofExploration]

theorem size_states_ofExploration :
    (ofExploration table exploration log).states.size = exploration.found.size := by
  rw [ofExploration, Dfa.size_states_ofExploration]

theorem state?_ofExploration {number : Nat} (hkey : exploration.found.key? number = some key) :
    (ofExploration table exploration log).state? number = .ok (number, key) := by
  simp only [state?, ofExploration, Dfa.getElem?_states_ofExploration, hkey, Option.map_some]
  simp only [FollowTable.stateOf, hkey]

/-- A state that is taken out of the queue is a key with a row that is still empty. -/
theorem take_ofExploration :
    { ofExploration table ⟨found, rows⟩ log with queue := waiting ⟨found, rows.push []⟩ } =
      ofExploration table ⟨found, rows.push []⟩ log := by
  rw [ofExploration, ofExploration, Draft.mk.injEq]
  refine ⟨rfl, Array.ext_getElem? fun number => ?_, rfl, rfl⟩
  rw [Dfa.getElem?_states_ofExploration, Dfa.getElem?_states_ofExploration, Array.getElem?_push]
  split
  · next hlast =>
    rw [Array.getElem?_eq_none (Nat.le_of_eq hlast.symm)]
    rfl
  · rfl

/-- A new transition of the state that is being expanded is a new edge at the end of its row. -/
theorem connect_ofExploration {symbol : String} (hsymbol : symbol ∉ row.map Discovery.symbol)
    (target : Nat) (fresh : Bool) :
    (ofExploration table ⟨found, rows.push row⟩ log).connect rows.size symbol target =
      ofExploration table ⟨found, rows.push (row ++ [⟨symbol, target, fresh⟩])⟩ log := by
  have hput : Table.put (row.map fun edge => (edge.symbol, edge.target)) symbol target =
      (row ++ [Discovery.mk symbol target fresh]).map fun edge => (edge.symbol, edge.target) := by
    rw [Table.put_of_not_mem (by simpa [List.map_map] using hsymbol), List.map_append]
    rfl
  have hqueue : waiting ⟨found, rows.push row⟩ =
      waiting ⟨found, rows.push (row ++ [⟨symbol, target, fresh⟩])⟩ := by
    rw [waiting, waiting, Array.size_push, Array.size_push]
  rw [connect, ofExploration, ofExploration, Draft.mk.injEq]
  refine ⟨rfl, ?_, hqueue, rfl⟩
  apply Array.ext_getElem?
  intro number
  rw [Array.getElem?_modify, Dfa.getElem?_states_ofExploration, Dfa.getElem?_states_ofExploration,
    Array.getElem?_push, Array.getElem?_push]
  by_cases hnumber : number = rows.size
  · subst hnumber
    rw [if_pos rfl, if_pos rfl, if_pos rfl, Option.map_map]
    refine congrArg (Option.map · _) (funext fun key => ?_)
    rw [Option.getD_some, Option.getD_some, ← hput]
    rfl
  · rw [if_neg (Ne.symm hnumber), if_neg hnumber, if_neg hnumber]

/-- A new state that joins the queue is a new key, whatever is done next. -/
theorem addState_ofExploration {limit : Option Int} (hnew : found.number? key = none)
    (hrows : rows.size ≤ found.size) (next : Draft → Except Failure Draft) :
    (do
      let added ← table.addState limit (ofExploration table ⟨found, rows⟩ log) key hnew
      next (added.enqueue found.size)) = (do
      room limit found.size
      next (ofExploration table ⟨found.push key hnew, rows⟩ log)) := by
  have hsize : (Dfa.ofExploration ⟨found, rows⟩ [] table.stateOf).states.size = found.size :=
    Dfa.size_states_ofExploration
  have hqueue : waiting ⟨found, rows⟩ ++ [found.size] = waiting ⟨found.push key hnew, rows⟩ := by
    have hgrown : (found.push key hnew).size = found.size + 1 := size_push hnew
    have hjoined : waiting ⟨found, rows⟩ ++
        List.range' found.size ((found.push key hnew).size - found.size) =
          waiting ⟨found.push key hnew, rows⟩ :=
      waiting_append hrows (Nat.le_of_lt (by omega))
    rw [← hjoined, hgrown, Nat.add_sub_cancel_left]
    rfl
  have hstates : (Dfa.ofExploration ⟨found, rows⟩ [] table.stateOf).states.push
      (table.stateOf found.size key []) =
        (Dfa.ofExploration ⟨found.push key hnew, rows⟩ [] table.stateOf).states := by
    apply Array.ext_getElem?
    intro number
    rw [Array.getElem?_push, hsize, Dfa.getElem?_states_ofExploration,
      Dfa.getElem?_states_ofExploration, Numbering.key?_push]
    split
    · next hlast =>
      have hrow : rows[number]? = none := Array.getElem?_eq_none (hlast ▸ hrows)
      rw [hrow, hlast]
      rfl
    · rfl
  simp only [FollowTable.addState, ofExploration, hsize]
  cases room limit found.size with
  | error failure => rfl
  | ok _ =>
    simp only [bind, Except.bind, pure, Except.pure, enqueue, hqueue, hstates]

end Draft

namespace FollowTable

variable {table : FollowTable} {limit : Option Int} {symbols : List String} {symbol : String}
  {found : Numbering (List Position)} {rows : Array (List Discovery)} {row : List Discovery}
  {key contributing result : List Position} {log : List TraceStep} {number : Nat}

section Symbol

variable (hcontributing : table.contributing key symbol = .ok contributing)
  (hresult : table.followersOfAll contributing = .ok result)

include hcontributing

theorem addTransition_of_none (hnone : contributing = []) (draft : Draft) :
    table.addTransition limit number number key draft symbol = .ok draft := by
  rw [addTransition, hcontributing, hnone]
  rfl

include hresult

theorem step_eq : table.step key symbol = .ok (if result.isEmpty then none else some result) := by
  rw [step, hcontributing]
  simp only [bind, Except.bind, hresult]
  rfl

theorem addTransition_of_nowhere (hsome : contributing ≠ []) (hnowhere : result = [])
    (draft : Draft) :
    table.addTransition limit number number key draft symbol =
      .ok (draft.note (.transition number symbol contributing [] none false)) := by
  rw [addTransition, hcontributing]
  subst hnowhere
  simp [bind, Except.bind, hresult, hsome, pure, Except.pure]

/-- A set that has a state gets no other one, and does not wait again. -/
theorem addTransition_of_known (hsome : contributing ≠ []) (hsomewhere : result ≠ [])
    {draft : Draft} {target : Nat} (hknown : draft.found.number? result = some target) :
    table.addTransition limit number number key draft symbol =
      .ok ((draft.connect number symbol target).note
        (.transition number symbol contributing result (some target) false)) := by
  have hfilled := List.isEmpty_eq_false_iff.2 hsome
  have hleads := List.isEmpty_eq_false_iff.2 hsomewhere
  simp only [addTransition, hcontributing, hresult, bind, Except.bind, hfilled, hleads,
    Bool.false_eq_true, if_false]
  split
  · next other hother =>
    rw [Option.some.inj (hother.symm.trans hknown)]
    rfl
  · next hnew => cases hnew.symm.trans hknown

theorem addTransition_of_new (hsome : contributing ≠ []) (hsomewhere : result ≠ [])
    {draft : Draft} (hnew : draft.found.number? result = none) :
    table.addTransition limit number number key draft symbol = (do
      let extended ← table.addState limit draft result hnew
      return ((extended.enqueue draft.states.size).connect number symbol draft.states.size).note
        (.transition number symbol contributing result (some draft.states.size) true)) := by
  have hfilled := List.isEmpty_eq_false_iff.2 hsome
  have hleads := List.isEmpty_eq_false_iff.2 hsomewhere
  simp only [addTransition, hcontributing, hresult, bind, Except.bind, hfilled, hleads,
    Bool.false_eq_true, if_false]
  split
  · next target hknown => cases hnew.symm.trans hknown
  · rfl

/-- A transition that leads to a set is an edge of the search. -/
theorem addTransition_ofExploration (hsome : contributing ≠ []) (hsomewhere : result ≠ [])
    (hrows : rows.size < found.size) (hsymbol : symbol ∉ row.map Discovery.symbol) :
    table.addTransition limit rows.size rows.size key
        (.ofExploration table ⟨found, rows.push row⟩ log) symbol = (do
      let (target, fresh, extended) ← locate limit found result
      return .ofExploration table ⟨extended, rows.push (row ++ [⟨symbol, target, fresh⟩])⟩
        (log ++ [.transition rows.size symbol contributing result (some target) fresh])) := by
  have hopen : (rows.push row).size ≤ found.size := by
    rw [Array.size_push]
    exact hrows
  rcases Option.eq_none_or_eq_some (found.number? result) with hnew | ⟨target, hknown⟩
  · rw [addTransition_of_new hcontributing hresult hsome hsomewhere hnew, locate_of_new hnew,
      Draft.size_states_ofExploration]
    refine (Draft.addState_ofExploration hnew hopen fun draft =>
      .ok ((draft.connect rows.size symbol found.size).note _)).trans ?_
    rw [Draft.connect_ofExploration hsymbol found.size true, Draft.note_ofExploration, bind_assoc]
    rfl
  · rw [addTransition_of_known hcontributing hresult hsome hsomewhere hknown,
      locate_of_known hknown, Draft.connect_ofExploration hsymbol target false,
      Draft.note_ofExploration]
    rfl

end Symbol

/-- The draft when the set of the state in turn is expanded by some symbols more. -/
def expandedBy (table : FollowTable) (limit : Option Int) (key : List Position)
    (rows : Array (List Discovery)) (symbols : List String) (found : Numbering (List Position))
    (row : List Discovery) (log : List TraceStep) : Except Failure Draft := do
  let (rest, final) ← expand table.step limit key symbols found
  let entries ← TraceStep.transitions table rows.size key rest symbols
  return .ofExploration table ⟨final, rows.push (row ++ rest)⟩ (log ++ entries)

section Expanded

theorem expandedBy_nil :
    table.expandedBy limit key rows [] found row log =
      .ok (.ofExploration table ⟨found, rows.push row⟩ log) := by
  simp [expandedBy, expand, TraceStep.transitions, bind, Except.bind, pure, Except.pure]

variable (hcontributing : table.contributing key symbol = .ok contributing)

include hcontributing

theorem expandedBy_of_none (hnone : contributing = []) :
    table.expandedBy limit key rows (symbol :: symbols) found row log =
      table.expandedBy limit key rows symbols found row log := by
  subst hnone
  have hstep : table.step key symbol = .ok none := by
    rw [step, hcontributing]
    rfl
  rw [expandedBy, expand_cons_none hstep]
  simp only [TraceStep.transitions_of_none hcontributing]
  rfl

variable (hresult : table.followersOfAll contributing = .ok result) (hsome : contributing ≠ [])
  (hsymbol : symbol ∉ symbols)

include hresult hsome hsymbol

/-- A symbol that leads nowhere is logged and enters no transition. -/
theorem expandedBy_of_nowhere (hnowhere : result = []) :
    table.expandedBy limit key rows (symbol :: symbols) found row log =
      table.expandedBy limit key rows symbols found row
        (log ++ [.transition rows.size symbol contributing [] none false]) := by
  subst hnowhere
  rw [expandedBy, expandedBy, expand_cons_none (step_eq hcontributing hresult)]
  cases hexpand : expand table.step limit key symbols found with
  | error failure => rfl
  | ok made =>
    have habsent : Discovery.ofSymbol? made.1 symbol = none :=
      Discovery.ofSymbol?_eq_none fun hmade => hsymbol ((symbols_expand hexpand).subset hmade)
    simp only [bind, Except.bind]
    rw [TraceStep.transitions_of_some hcontributing hresult hsome, habsent]
    cases TraceStep.transitions table rows.size key made.1 symbols with
    | error failure => rfl
    | ok entries => simp [bind, Except.bind, pure, Except.pure]

/-- A symbol that leads to a set enters a transition to the state of this set, which is made now if
there is none. -/
theorem expandedBy_of_somewhere (hsomewhere : result ≠ []) :
    table.expandedBy limit key rows (symbol :: symbols) found row log = (do
      let (target, fresh, extended) ← locate limit found result
      table.expandedBy limit key rows symbols extended (row ++ [⟨symbol, target, fresh⟩])
        (log ++ [.transition rows.size symbol contributing result (some target) fresh])) := by
  have hstep := step_eq hcontributing hresult
  rw [if_neg (by simpa using hsomewhere)] at hstep
  rw [expandedBy, expand_cons_some hstep, bind_assoc]
  cases hlocate : locate limit found result with
  | error failure => rfl
  | ok located =>
    obtain ⟨target, fresh, extended⟩ := located
    simp only [expandedBy, bind, Except.bind]
    cases expand table.step limit key symbols extended with
    | error failure => rfl
    | ok made =>
      have hedge : Discovery.ofSymbol? (⟨symbol, target, fresh⟩ :: made.1) symbol =
          some ⟨symbol, target, fresh⟩ := List.find?_cons_of_pos (decide_eq_true rfl)
      dsimp only [pure, Except.pure]
      rw [TraceStep.transitions_of_some hcontributing hresult hsome,
        TraceStep.transitions_cons hsymbol, hedge]
      cases TraceStep.transitions table rows.size key made.1 symbols with
      | error failure => rfl
      | ok entries => simp [bind, Except.bind, pure, Except.pure]

end Expanded

/-- Finding the transitions of a state symbol by symbol is expanding its set. -/
theorem foldlM_addTransition (hrows : rows.size < found.size) (hsymbols : symbols.Nodup)
    (hrow : ∀ symbol ∈ symbols, symbol ∉ row.map Discovery.symbol) :
    symbols.foldlM (table.addTransition limit rows.size rows.size key)
        (.ofExploration table ⟨found, rows.push row⟩ log) =
      table.expandedBy limit key rows symbols found row log := by
  induction symbols generalizing found row log with
  | nil => exact expandedBy_nil.symm
  | cons symbol symbols ih =>
    rw [List.nodup_cons] at hsymbols
    rw [List.forall_mem_cons] at hrow
    rw [List.foldlM_cons]
    cases hcontributing : table.contributing key symbol with
    | error failure =>
      simp [addTransition, expandedBy, expand, step, hcontributing, bind, Except.bind]
    | ok contributing =>
      by_cases hnone : contributing = []
      · rw [addTransition_of_none hcontributing hnone, expandedBy_of_none hcontributing hnone]
        exact ih hrows hsymbols.2 hrow.2
      cases hresult : table.followersOfAll contributing with
      | error failure =>
        simp [addTransition, expandedBy, expand, step, hcontributing, hresult, hnone, bind,
          Except.bind]
      | ok result =>
        by_cases hnowhere : result = []
        · rw [addTransition_of_nowhere hcontributing hresult hnone hnowhere,
            expandedBy_of_nowhere hcontributing hresult hnone hsymbols.1 hnowhere,
            Draft.note_ofExploration]
          exact ih hrows hsymbols.2 hrow.2
        · rw [addTransition_ofExploration hcontributing hresult hnone hnowhere hrows hrow.1,
            expandedBy_of_somewhere hcontributing hresult hnone hsymbols.1 hnowhere]
          cases hlocate : locate limit found result with
          | error failure => rfl
          | ok located =>
            have hgrown := Nat.lt_of_lt_of_le hrows (locate_size_le hlocate)
            refine ih hgrown hsymbols.2 fun other hother hmem => ?_
            rw [List.map_append, List.mem_append] at hmem
            rcases hmem with hearlier | hown
            · exact hrow.2 other hother hearlier
            · rw [List.mem_singleton.1 hown] at hother
              exact hsymbols.1 hother

section Loop

variable {exploration : Exploration (List Position)} {fuel : Nat}

theorem opening_eq : table.opening limit = (do
    let (_, _, found) ← locate limit .empty table.first
    return .ofExploration table { found } [.initial table.first]) := by
  have hnew : (Numbering.empty : Numbering (List Position)).number? table.first = none :=
    Numbering.number?_empty
  have hadded := @Draft.addState_ofExploration table .empty #[] table.first [] limit hnew
    (Nat.le_refl 0) fun draft => .ok (draft.note (.initial table.first))
  rw [Draft.note_ofExploration] at hadded
  rw [locate_of_new hnew, bind_assoc]
  exact hadded

theorem work_nil (hnone : exploration.found.key? exploration.rows.size = none) :
    table.work limit symbols fuel (.ofExploration table exploration log) =
      .ok (.ofExploration table exploration log) := by
  cases fuel with
  | zero => rfl
  | succ fuel =>
    have hqueue : (Draft.ofExploration table exploration log).queue = [] := waiting_of_none hnone
    rw [work, hqueue]

/-- The next state in turn is logged with its set, and then it is expanded symbol by symbol. -/
theorem work_cons (hsymbols : symbols.Nodup) (hkey : found.key? rows.size = some key) :
    table.work limit symbols (fuel + 1) (.ofExploration table ⟨found, rows⟩ log) = (do
      let extended ←
        table.expandedBy limit key rows symbols found [] (log ++ [.state rows.size key])
      table.work limit symbols fuel extended) := by
  have hqueue : (Draft.ofExploration table ⟨found, rows⟩ log).queue =
      rows.size :: waiting ⟨found, rows.push []⟩ := waiting_of_some hkey []
  have hstate : (Draft.ofExploration table ⟨found, rows⟩ log).state? rows.size =
      .ok (rows.size, key) := Draft.state?_ofExploration hkey
  have hrows : rows.size < found.size := Numbering.lt_size_iff.2 ⟨key, hkey⟩
  rw [work, hqueue]
  dsimp only
  rw [hstate]
  simp only [bind, Except.bind]
  rw [Draft.take_ofExploration, Draft.note_ofExploration, foldlM_addTransition hrows hsymbols
    fun _ _ => List.not_mem_nil]

/-- At the end of the queue a draft stands where the search stands. -/
theorem work_ofExploration (hsymbols : symbols.Nodup)
    (hlog : TraceStep.ofExploration table symbols exploration = .ok log) :
    table.work limit symbols fuel (.ofExploration table exploration log) = (do
      let final ← continueFrom table.step limit symbols fuel exploration
      let entries ← TraceStep.ofExploration table symbols final
      return .ofExploration table final entries) := by
  induction fuel generalizing exploration log with
  | zero =>
    rw [continueFrom]
    simp only [bind, Except.bind, hlog]
    rfl
  | succ fuel ih =>
    obtain ⟨found, rows⟩ := exploration
    cases hkey : found.key? rows.size with
    | none =>
      simp only [continueFrom, hkey, bind, Except.bind, hlog]
      exact work_nil hkey
    | some key =>
      rw [work_cons hsymbols hkey, expandedBy, bind_assoc]
      simp only [continueFrom, hkey]
      cases hexpand : expand table.step limit key symbols found with
      | error failure => rfl
      | ok made =>
        obtain ⟨row, extended⟩ := made
        obtain ⟨own, hown⟩ := TraceStep.exists_transitions hexpand row
        have hmore := TraceStep.ofExploration_push hkey (extends_expand hexpand) hlog hown
        simp only [bind, Except.bind, hown]
        rw [List.nil_append, List.append_assoc]
        exact ih hmore

end Loop

theorem nodup_alphabet (table : FollowTable) : table.alphabet.Nodup := by
  have hascending : table.alphabet.Pairwise (· < ·) := Ascending.pairwise_ofList _
  exact hascending.imp fun hless => Std.ne_of_lt hless

/-- The direct construction makes of a table with first positions what a search through sets of
positions makes of it, with the log that this search tells. -/
theorem direct_eq_search (hfirst : table.first ≠ []) :
    table.direct limit = (do
      let exploration ← run table.step limit table.alphabet (Nat.pow 2 table.follow.length + 2)
        table.first
      let trace ← TraceStep.ofExploration table table.alphabet exploration
      return (Dfa.ofExploration exploration table.alphabet table.stateOf, trace)) := by
  have hfilled : table.first.isEmpty = false := List.isEmpty_eq_false_iff.2 hfirst
  rw [direct, opening_eq, run]
  simp only [hfilled]
  cases hlocate : locate limit .empty table.first with
  | error failure => rfl
  | ok located =>
    obtain ⟨target, fresh, found⟩ := located
    have hlog : TraceStep.ofExploration table table.alphabet { found } =
        .ok [.initial table.first] := rfl
    simp only [Bool.false_eq_true, if_false, bind, Except.bind, pure, Except.pure,
      work_ofExploration table.nodup_alphabet hlog]
    cases continueFrom table.step limit table.alphabet _ { found } with
    | error failure => rfl
    | ok exploration =>
      dsimp only
      cases TraceStep.ofExploration table table.alphabet exploration <;> rfl

/-- The construction ends with an empty queue, and with any fuel that is enough for its states. -/
def EmptiesQueue (table : FollowTable) (dfa : Dfa) (trace : List TraceStep) : Prop :=
  ∃ opened draft, table.opening none = .ok opened ∧
    (∀ fuel, dfa.states.size ≤ fuel → table.work none table.alphabet fuel opened = .ok draft) ∧
    draft.queue = [] ∧ dfa = Dfa.ofStates draft.states table.alphabet 0 ∧ trace = draft.log.toList

/-- The construction keeps step with the search, so that its queue is empty when every set is
expanded. -/
theorem emptiesQueue_direct {exploration : Exploration (List Position)} {dfa : Dfa}
    {trace : List TraceStep} (hfirst : table.first ≠ [])
    (hrun : run table.step none table.alphabet (Nat.pow 2 table.follow.length + 2) table.first =
      .ok exploration)
    (hcomplete : Complete table.step table.alphabet table.first exploration)
    (hmade : table.direct none = .ok (dfa, trace)) : table.EmptiesQueue dfa trace := by
  rw [direct_eq_search hfirst, hrun] at hmade
  obtain ⟨steps, hsteps, hresult⟩ := Traversal.bind_eq_ok_iff.1 (hmade : (do
    let steps ← TraceStep.ofExploration table table.alphabet exploration
    return (Dfa.ofExploration exploration table.alphabet table.stateOf, steps)) = .ok (dfa, trace))
  cases hresult
  obtain ⟨-, found, hlocate, hdrains⟩ := expandsEachOnce_run hrun hcomplete
  have hopening : table.opening none =
      .ok (.ofExploration table { found } [.initial table.first]) := by
    rw [opening_eq, hlocate]
    rfl
  refine ⟨_, .ofExploration table exploration trace, hopening, fun fuel hfuel => ?_,
    waiting_of_none hcomplete.key?_size, rfl, rfl⟩
  rw [Dfa.size_states_ofExploration] at hfuel
  have hkeys : exploration.found.keys.toList.length ≤ fuel := hfuel
  rw [work_ofExploration table.nodup_alphabet rfl, hdrains.continueFrom_eq hkeys]
  simp only [bind, Except.bind, hsteps]
  rfl

end FollowTable
end RegexAutomata
