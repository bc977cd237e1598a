import RegexAutomata.Proofs.Graph.Source

/-!
# Pictures of deterministic automata

Transitions between the same two states share an arrow, whose label lists their symbols between
commas.  Nothing is lost by this: there is one arrow for each two states that are connected, and as
long as no symbol has a comma in it, the automaton can be read from the statements again.
-/

namespace RegexAutomata

open Dot (Statement)

namespace Table

variable {κ ν : Type} [DecidableEq κ]

/-- Collects the values that come in under the same key. -/
def gather (table : Table κ (List ν)) (entries : List (κ × ν)) : Table κ (List ν) :=
  entries.foldl
    (fun table entry => alter entry.1 (fun known => known.getD [] ++ [entry.2]) table) table

def valuesOf (key : κ) (entries : List (κ × ν)) : List ν :=
  (entries.filter fun entry => entry.1 = key).map Prod.snd

theorem valuesOf_cons (key : κ) (entry : κ × ν) (rest : List (κ × ν)) :
    valuesOf key (entry :: rest) =
      if entry.1 = key then entry.2 :: valuesOf key rest else valuesOf key rest := by
  rw [valuesOf, List.filter_cons]
  by_cases hkey : entry.1 = key
  · simp [hkey, valuesOf]
  · simp [hkey, valuesOf]

theorem nodup_keys_gather {table : Table κ (List ν)} (htable : (table.map Prod.fst).Nodup)
    (entries : List (κ × ν)) : ((gather table entries).map Prod.fst).Nodup := by
  induction entries generalizing table with
  | nil => exact htable
  | cons entry rest ih => exact ih (nodup_keys_alter htable entry.1 _)

/-- Under each key the values that come in are put behind those that are there. -/
theorem value?_gather (table : Table κ (List ν)) (entries : List (κ × ν)) (key : κ) :
    value? key (gather table entries) =
      if valuesOf key entries = [] then value? key table
      else some ((value? key table).getD [] ++ valuesOf key entries) := by
  induction entries generalizing table with
  | nil => rfl
  | cons entry rest ih =>
    have hgather : gather table (entry :: rest) =
        gather (alter entry.1 (fun known => known.getD [] ++ [entry.2]) table) rest := rfl
    rw [hgather, ih, value?_alter, valuesOf_cons]
    by_cases hkey : entry.1 = key
    · rw [if_pos hkey, if_pos hkey, if_neg (List.cons_ne_nil _ _), hkey]
      split
      · next hnone => rw [hnone]
      · rw [Option.getD_some, List.append_assoc, List.singleton_append]
    · rw [if_neg hkey, if_neg hkey]

theorem mem_gather_iff {entries : List (κ × ν)} {key : κ} {values : List ν} :
    (key, values) ∈ gather [] entries ↔ values = valuesOf key entries ∧ values ≠ [] := by
  have hkeys : ((gather [] entries).map Prod.fst).Nodup := by
    apply nodup_keys_gather
    exact List.nodup_nil
  rw [← value?_eq_some_iff hkeys, value?_gather]
  split
  · next hnone =>
    rw [hnone]
    constructor
    · intro hsome
      cases hsome
    · intro hvalues
      exact absurd hvalues.1 hvalues.2
  · next hsome =>
    rw [value?, Option.getD_none, List.nil_append, Option.some_inj]
    constructor
    · rintro rfl
      exact ⟨rfl, hsome⟩
    · rintro ⟨rfl, -⟩
      rfl

/-- In a table that has each key once, a key picks out its entry. -/
theorem filter_key_eq {table : Table κ ν} (htable : (table.map Prod.fst).Nodup) {key : κ}
    {value : ν} (hmem : (key, value) ∈ table) :
    (table.filter fun entry => entry.1 = key) = [(key, value)] := by
  induction table with
  | nil => cases hmem
  | cons entry rest ih =>
    rw [List.map_cons, List.nodup_cons] at htable
    rcases List.mem_cons.1 hmem with rfl | hrest
    · have hnone : rest.filter (fun entry => entry.1 = key) = [] := by
        apply List.filter_eq_nil_iff.2
        intro other hother hsame
        apply htable.1
        exact List.mem_map.2 ⟨other, hother, of_decide_eq_true hsame⟩
      rw [List.filter_cons_of_pos (by simp), hnone]
    · have hdifferent : entry.1 ≠ key := by
        intro hsame
        apply htable.1
        rw [hsame]
        exact List.mem_map.2 ⟨_, hrest, rfl⟩
      rw [List.filter_cons_of_neg (by simpa using hdifferent), ih htable.2 hrest]

end Table

namespace Dot

def Statement.joins (source target : String) : Statement → Bool
  | node _ _ => false
  | edge tail head _ => tail == source && head == target

def symbolsIn (label : String) : List String :=
  (label.toList.splitOn ',').map String.ofList

/-- The transitions that an arrow between two numbers shows, one for each symbol in its label. -/
def Statement.transitions : Statement → List (Nat × String × Nat)
  | node _ _ => []
  | edge tail head attributes =>
    match tail.toNat?, head.toNat?, Table.value? "label" attributes with
    | some source, some target, some label =>
      (symbolsIn label).map fun symbol => (source, symbol, target)
    | _, _, _ => []

def Statement.accepting? : Statement → Option Nat
  | node name attributes =>
    if Table.value? "shape" attributes = some "doublecircle" then name.toNat? else none
  | edge _ _ _ => none

def Statement.start? : Statement → Option Nat
  | node _ _ => none
  | edge tail head _ => if tail = "start" then head.toNat? else none

end Dot

namespace Dfa

open Dot

def HasTransition (dfa : Dfa) (source : Nat) (symbol : String) (target : Nat) : Prop :=
  ∃ state, dfa.states[source]? = some state ∧ (symbol, target) ∈ state.transitions

def symbolsBetween (dfa : Dfa) (source target : Nat) : List String :=
  match dfa.states[source]? with
  | none => []
  | some state =>
    (state.transitions.filter fun transition => transition.2 = target).map Prod.fst

/-- Every state has its place as its number. -/
def Numbered (dfa : Dfa) : Prop :=
  ∀ (number : Nat) (state : State), dfa.states[number]? = some state → state.id = number

/-- Of the statements, one is an arrow to the start.  All others are arrows between states that are
connected, just one for each two of them, and it is labelled with the symbols of all transitions
between them, in ascending order. -/
structure Merges (dfa : Dfa) (start : Nat) (statements : List Statement) : Prop where
  one_arrow : ∀ source target, dfa.symbolsBetween source target ≠ [] →
    ∃ symbols : List String, symbols.Perm (dfa.symbolsBetween source target) ∧
      symbols.Pairwise (· ≤ ·) ∧
      statements.filter (Statement.joins (toString source) (toString target)) =
        [.edge (toString source) (toString target) [("label", ",".intercalate symbols)]]
  start_arrow : statements.filter (Statement.joins "start" (toString start)) =
    [.edge "start" (toString start) [("label", "start")]]
  no_other : ∀ tail head attributes, Statement.edge tail head attributes ∈ statements →
    (tail = "start" ∧ head = toString start) ∨ ∃ source target,
      dfa.symbolsBetween source target ≠ [] ∧ tail = toString source ∧ head = toString target

/-- The statements show a whole automaton: its transitions, its start and its accepting states. -/
structure ShownBy (dfa : Dfa) (start : Nat) (statements : List Statement) : Prop where
  transitions : ∀ source symbol target,
    (source, symbol, target) ∈ statements.flatMap Statement.transitions ↔
      dfa.HasTransition source symbol target
  start : statements.filterMap Statement.start? = [start]
  accepting : statements.filterMap Statement.accepting? = dfa.acceptingStates

variable {dfa : Dfa} {source target start : Nat} {symbol label : String} {symbols : List String}

theorem mem_symbolsBetween_iff :
    symbol ∈ dfa.symbolsBetween source target ↔ dfa.HasTransition source symbol target := by
  rw [symbolsBetween, HasTransition]
  cases hstate : dfa.states[source]? with
  | none => simp
  | some state => simp

section Table

/-- Among states that are numbered by their places, only one has a given number. -/
theorem flatMap_numbered {β : Type} {states : List State} {first : Nat} (items : State → List β)
    (hids : ∀ (place : Nat) (state : State), states[place]? = some state → state.id = first + place)
    (place : Nat) :
    (states.flatMap fun state => if state.id = first + place then items state else []) =
      (states[place]?.map items).getD [] := by
  induction states generalizing first place with
  | nil => rfl
  | cons state rest ih =>
    have hfirst : state.id = first + 0 := hids 0 state rfl
    have hrest : ∀ (place : Nat) (other : State), rest[place]? = some other →
        other.id = first + 1 + place := by
      intro place other hother
      rw [hids (place + 1) other hother, Nat.add_assoc, Nat.add_comm 1]
    rw [List.flatMap_cons]
    cases place with
    | zero =>
      have hnone : ∀ other ∈ rest, (if other.id = first + 0 then items other else []) = [] := by
        intro other hother
        obtain ⟨place, hplace⟩ := List.mem_iff_getElem?.1 hother
        have hnumber := hrest place other hplace
        exact if_neg (by omega)
      rw [if_pos hfirst, List.flatMap_eq_nil_iff.2 hnone, List.append_nil]
      rfl
    | succ place =>
      have hshift : first + (place + 1) = first + 1 + place := by omega
      rw [if_neg (by omega), List.nil_append, List.getElem?_cons_succ, hshift]
      exact ih hrest place

theorem valuesOf_transitions (state : State) (source target : Nat) :
    Table.valuesOf (source, target)
        (state.transitions.map fun transition => ((state.id, transition.2), transition.1)) =
      if state.id = source then
        (state.transitions.filter fun transition => transition.2 = target).map Prod.fst
      else [] := by
  rw [Table.valuesOf, List.filter_map, List.map_map]
  split
  · next hsource =>
    have htest : ∀ transition ∈ state.transitions,
        ((fun entry : (Nat × Nat) × String => decide (entry.1 = (source, target))) ∘
          fun transition : String × Nat => ((state.id, transition.2), transition.1)) transition =
            decide (transition.2 = target) := by
      intro transition _
      simp [hsource]
    rw [List.filter_congr htest]
    rfl
  · next hother =>
    rw [List.filter_eq_nil_iff.2, List.map_nil]
    intro transition _
    simp [hother]

/-- Under two states the table of arrows has the symbols of all transitions between them. -/
theorem mem_arrowTable_iff (hids : dfa.Numbered) :
    ((source, target), symbols) ∈ dfa.arrowTable ↔
      symbols = dfa.symbolsBetween source target ∧ symbols ≠ [] := by
  have hplaces : ∀ (place : Nat) (state : State), dfa.states.toList[place]? = some state →
      state.id = 0 + place := by
    intro place state hstate
    rw [Array.getElem?_toList] at hstate
    rw [hids place state hstate, Nat.zero_add]
  have hvalues : Table.valuesOf (source, target) (dfa.states.toList.flatMap fun state =>
      state.transitions.map fun transition => ((state.id, transition.2), transition.1)) =
        dfa.symbolsBetween source target := by
    rw [Table.valuesOf, List.filter_flatMap, List.map_flatMap]
    have hrow := flatMap_numbered (fun state => (state.transitions.filter fun transition =>
      transition.2 = target).map Prod.fst) hplaces source
    simp only [Nat.zero_add, ← valuesOf_transitions] at hrow
    refine hrow.trans ?_
    rw [Array.getElem?_toList, symbolsBetween]
    cases dfa.states[source]? with
    | none => rfl
    | some state => rfl
  rw [← hvalues]
  exact Table.mem_gather_iff

theorem nodup_keys_arrowTable (dfa : Dfa) : (dfa.arrowTable.map Prod.fst).Nodup := by
  apply Table.nodup_keys_gather
  exact List.nodup_nil

end Table

section Sorted

theorem perm_sorted (symbols : List String) : (Ascending.sorted symbols).Perm symbols :=
  List.mergeSort_perm symbols _

theorem pairwise_sorted (symbols : List String) :
    (Ascending.sorted symbols).Pairwise (· ≤ ·) := by
  have hpairwise : (Ascending.sorted symbols).Pairwise
      fun left right => decide (left ≤ right) = true := by
    apply List.pairwise_mergeSort
    · intro first second third hfirst hsecond
      rw [decide_eq_true_eq] at hfirst hsecond ⊢
      exact String.le_trans hfirst hsecond
    · intro left right
      simpa using String.le_total left right
  exact hpairwise.imp of_decide_eq_true

/-- Symbols without commas are told apart by the commas between them. -/
theorem symbolsIn_intercalate (hsymbols : symbols ≠ [])
    (hcomma : ∀ symbol ∈ symbols, ',' ∉ symbol.toList) :
    symbolsIn (",".intercalate symbols) = symbols := by
  have hrows : ∀ row ∈ symbols.map String.toList, ',' ∉ row := by
    intro row hrow
    obtain ⟨symbol, hsymbol, rfl⟩ := List.mem_map.1 hrow
    exact hcomma symbol hsymbol
  have hseparator : ",".toList = [','] := rfl
  rw [symbolsIn, String.toList_intercalate, hseparator,
    List.splitOn_intercalate ',' hrows (by simpa using hsymbols), List.map_map]
  simp

end Sorted

section Names

theorem toNat?_start : "start".toNat? = none := by
  rw [String.toNat?_eq_none_iff, Bool.eq_false_iff, Ne, String.isNat_iff]
  rintro ⟨-, hdigits, -⟩
  exact absurd (hdigits 's' (by decide)) (by decide)

theorem start_ne_toString (number : Nat) : "start" ≠ toString number := by
  intro hequal
  have hnumber := toNat?_toString number
  rw [← hequal, toNat?_start] at hnumber
  cases hnumber

end Names

section Drawn

def drawnState (start : Nat) (state : State) : Statement :=
  stateNode (toString state.id) state.label (state.id == start) state.accepting

def sharedArrow (entry : (Nat × Nat) × List String) : Statement :=
  .edge (toString entry.1.1) (toString entry.1.2)
    [("label", ",".intercalate (Ascending.sorted entry.2))]

/-- The node without outline, from which an arrow points to the start. -/
def startNode : Statement :=
  .node "start" [("label", ""), ("color", "white")]

def startArrow (start : Nat) : Statement :=
  .edge "start" (toString start) [("label", "start")]

/-- What is drawn: the states, the arrows between them, and the start. -/
theorem statements_digraph (hstart : dfa.start = some start) (comment : String) :
    (dfa.digraph comment).statements = dfa.states.toList.map (drawnState start) ++
      (dfa.arrowTable.map sharedArrow ++ [startNode, startArrow start]) := by
  rw [digraph, hstart, ← List.append_assoc]
  rfl

theorem joins_sharedArrow (source target : Nat) :
    Statement.joins (toString source) (toString target) ∘ sharedArrow =
      fun entry => decide (entry.1 = (source, target)) := by
  funext ⟨⟨tail, head⟩, symbols⟩
  rw [Function.comp_apply, sharedArrow, Statement.joins, Bool.eq_iff_iff, Bool.and_eq_true,
    beq_iff_eq, beq_iff_eq, toString_inj, toString_inj, decide_eq_true_iff, Prod.mk.injEq]

/-- A test for arrows picks out shared arrows and the arrow to the start. -/
theorem filter_statements {test : Statement → Bool}
    (htest : ∀ name attributes, test (.node name attributes) = false)
    (hstart : dfa.start = some start) (comment : String) :
    (dfa.digraph comment).statements.filter test =
      (dfa.arrowTable.filter (test ∘ sharedArrow)).map sharedArrow ++
        [startArrow start].filter test := by
  have hstates : (dfa.states.toList.map (drawnState start)).filter test = [] := by
    apply List.filter_eq_nil_iff.2
    intro statement hstatement
    obtain ⟨state, -, rfl⟩ := List.mem_map.1 hstatement
    rw [drawnState, stateNode, htest]
    exact Bool.false_ne_true
  have hnode : test startNode = false := htest _ _
  rw [statements_digraph hstart, List.filter_append, List.filter_append, hstates,
    List.nil_append, List.filter_map, List.filter_cons, hnode, if_neg Bool.false_ne_true]

/-- No two entries of the table of arrows are about the same two states, so that their arrow is the
only one. -/
theorem merges_digraph (hstart : dfa.start = some start) (hids : dfa.Numbered) (comment : String) :
    dfa.Merges start (dfa.digraph comment).statements := by
  constructor
  case one_arrow =>
    intro source target hsymbols
    refine ⟨_, perm_sorted _, pairwise_sorted _, ?_⟩
    have hentry := (mem_arrowTable_iff hids).2 ⟨rfl, hsymbols⟩
    have hapart : (startArrow start).joins (toString source) (toString target) = false := by
      rw [startArrow, Statement.joins, beq_false_of_ne (start_ne_toString source), Bool.false_and]
    rw [filter_statements (fun _ _ => rfl) hstart, joins_sharedArrow,
      Table.filter_key_eq (nodup_keys_arrowTable dfa) hentry,
      List.filter_cons_of_neg (by rw [hapart]; exact Bool.false_ne_true)]
    rfl
  case start_arrow =>
    have hnone : dfa.arrowTable.filter
        (Statement.joins "start" (toString start) ∘ sharedArrow) = [] := by
      apply List.filter_eq_nil_iff.2
      intro entry _
      rw [Function.comp_apply, sharedArrow, Statement.joins,
        beq_false_of_ne (start_ne_toString entry.1.1).symm, Bool.false_and]
      exact Bool.false_ne_true
    have hjoins : (startArrow start).joins "start" (toString start) = true := by
      rw [startArrow, Statement.joins, beq_self_eq_true, beq_self_eq_true, Bool.and_self]
    rw [filter_statements (fun _ _ => rfl) hstart, hnone, List.filter_cons_of_pos hjoins]
    rfl
  case no_other =>
    intro tail head attributes hedge
    rw [statements_digraph hstart, List.mem_append, List.mem_append] at hedge
    rcases hedge with hstate | harrow | hlast
    · obtain ⟨state, -, hequal⟩ := List.mem_map.1 hstate
      cases hequal
    · obtain ⟨⟨⟨source, target⟩, symbols⟩, hentry, hequal⟩ := List.mem_map.1 harrow
      obtain ⟨rfl, hsymbols⟩ := (mem_arrowTable_iff hids).1 hentry
      cases hequal
      exact Or.inr ⟨source, target, hsymbols, rfl, rfl⟩
    · rcases List.mem_cons.1 hlast with hnode | harrow
      · cases hnode
      · cases List.mem_singleton.1 harrow
        exact Or.inl ⟨rfl, rfl⟩

end Drawn

section Shown

/-- From a shared arrow its symbols can be read again. -/
theorem transitions_sharedArrow (hsymbols : symbols ≠ [])
    (hcomma : ∀ symbol ∈ symbols, ',' ∉ symbol.toList) :
    (sharedArrow ((source, target), symbols)).transitions =
      (Ascending.sorted symbols).map fun symbol => (source, symbol, target) := by
  have hperm := perm_sorted symbols
  have hsorted : Ascending.sorted symbols ≠ [] := by
    intro hnone
    rw [hnone] at hperm
    exact hsymbols hperm.nil_eq.symm
  have hread := symbolsIn_intercalate hsorted fun symbol hsymbol =>
    hcomma symbol (hperm.mem_iff.1 hsymbol)
  have hlabel : ∀ label : String, Table.value? "label" [("label", label)] = some label :=
    fun _ => rfl
  simp only [sharedArrow, Statement.transitions, toNat?_toString, hlabel, hread]

theorem transitions_startArrow (start : Nat) : (startArrow start).transitions = [] := by
  rw [startArrow, Statement.transitions, toNat?_start]

/-- Only shared arrows show transitions, and they show all of them. -/
theorem mem_transitions_digraph_iff (hstart : dfa.start = some start) (hids : dfa.Numbered)
    (hcomma : ∀ source symbol target, dfa.HasTransition source symbol target →
      ',' ∉ symbol.toList) (comment : String) :
    (source, symbol, target) ∈ (dfa.digraph comment).statements.flatMap Statement.transitions ↔
      dfa.HasTransition source symbol target := by
  have hread : ∀ {source target symbols}, ((source, target), symbols) ∈ dfa.arrowTable →
      (sharedArrow ((source, target), symbols)).transitions =
        (Ascending.sorted symbols).map fun symbol => (source, symbol, target) := by
    intro source target symbols hentry
    obtain ⟨rfl, hsymbols⟩ := (mem_arrowTable_iff hids).1 hentry
    apply transitions_sharedArrow hsymbols
    intro symbol hsymbol
    exact hcomma source symbol target (mem_symbolsBetween_iff.1 hsymbol)
  rw [statements_digraph hstart, List.mem_flatMap, ← mem_symbolsBetween_iff]
  constructor
  · rintro ⟨statement, hstatement, hshown⟩
    rw [List.mem_append, List.mem_append, List.mem_cons, List.mem_singleton] at hstatement
    rcases hstatement with hstate | harrow | rfl | rfl
    · obtain ⟨state, -, rfl⟩ := List.mem_map.1 hstate
      cases hshown
    · obtain ⟨⟨⟨tail, head⟩, symbols⟩, hentry, rfl⟩ := List.mem_map.1 harrow
      rw [hread hentry] at hshown
      obtain ⟨other, hother, hequal⟩ := List.mem_map.1 hshown
      cases hequal
      rw [← ((mem_arrowTable_iff hids).1 hentry).1]
      exact (perm_sorted symbols).mem_iff.1 hother
    · cases hshown
    · rw [transitions_startArrow] at hshown
      cases hshown
  · intro hsymbol
    have hentry := (mem_arrowTable_iff hids).2 ⟨rfl, List.ne_nil_of_mem hsymbol⟩
    refine ⟨sharedArrow ((source, target), dfa.symbolsBetween source target), ?_, ?_⟩
    · apply List.mem_append_right
      apply List.mem_append_left
      exact List.mem_map_of_mem hentry
    · rw [hread hentry]
      exact List.mem_map.2 ⟨symbol, (perm_sorted _).mem_iff.2 hsymbol, rfl⟩

theorem start?_sharedArrow (entry : (Nat × Nat) × List String) :
    (sharedArrow entry).start? = none := by
  rw [sharedArrow, Statement.start?, if_neg (start_ne_toString entry.1.1).symm]

theorem accepting?_drawnState (start : Nat) (state : State) :
    (drawnState start state).accepting? = if state.accepting then some state.id else none := by
  have hshape : ∀ label color shape : String,
      Table.value? "shape" [("label", label), ("color", color), ("shape", shape)] = some shape :=
    fun _ _ _ => rfl
  rw [drawnState, stateNode, Statement.accepting?, hshape, toNat?_toString]
  cases state.accepting with
  | true => rfl
  | false => rfl

theorem shownBy_digraph (hstart : dfa.start = some start) (hids : dfa.Numbered)
    (hcomma : ∀ source symbol target, dfa.HasTransition source symbol target →
      ',' ∉ symbol.toList) (comment : String) :
    dfa.ShownBy start (dfa.digraph comment).statements := by
  constructor
  case transitions =>
    intro source symbol target
    exact mem_transitions_digraph_iff hstart hids hcomma comment
  case start =>
    have hstates : (dfa.states.toList.map (drawnState start)).filterMap Statement.start? = [] := by
      rw [List.filterMap_map]
      exact List.filterMap_eq_nil_iff.2 fun _ _ => rfl
    have harrows : (dfa.arrowTable.map sharedArrow).filterMap Statement.start? = [] := by
      rw [List.filterMap_map]
      exact List.filterMap_eq_nil_iff.2 fun entry _ => start?_sharedArrow entry
    have hlast : (startArrow start).start? = some start := by
      rw [startArrow, Statement.start?, if_pos rfl, toNat?_toString]
    have hnode : startNode.start? = none := rfl
    rw [statements_digraph hstart, List.filterMap_append, List.filterMap_append, hstates, harrows,
      List.nil_append, List.nil_append, List.filterMap_cons_none hnode,
      List.filterMap_cons_some hlast]
    rfl
  case accepting =>
    have harrows : (dfa.arrowTable.map sharedArrow).filterMap Statement.accepting? = [] := by
      rw [List.filterMap_map]
      exact List.filterMap_eq_nil_iff.2 fun _ _ => rfl
    have hstates : (dfa.states.toList.map (drawnState start)).filterMap Statement.accepting? =
        dfa.acceptingStates := by
      rw [List.filterMap_map, acceptingStates, ← List.filterMap_eq_map, List.filterMap_filter]
      apply congrArg (List.filterMap · dfa.states.toList)
      funext state
      exact accepting?_drawnState start state
    rw [statements_digraph hstart, List.filterMap_append, List.filterMap_append, hstates, harrows,
      List.nil_append]
    exact List.append_nil _

end Shown

/-- In the picture of an automaton there is one arrow for each two states that are connected, and it
has all their symbols.  So if no symbol has a comma in it, the picture shows the whole automaton. -/
theorem digraph_lossless (hstart : dfa.start = some start) (hids : dfa.Numbered)
    (comment : String) :
    dfa.Merges start (dfa.digraph comment).statements ∧
    ((∀ source symbol target, dfa.HasTransition source symbol target → ',' ∉ symbol.toList) →
      dfa.ShownBy start (dfa.digraph comment).statements) := by
  constructor
  · exact merges_digraph hstart hids comment
  · intro hcomma
    exact shownBy_digraph hstart hids hcomma comment

theorem numbered_of_ids (hids : dfa.states.toList.map State.id = List.range dfa.states.size) :
    dfa.Numbered := by
  intro number state hstate
  have hnumber : (dfa.states.toList.map State.id)[number]? = some state.id := by
    rw [List.getElem?_map, Array.getElem?_toList, hstate]
    rfl
  rw [hids] at hnumber
  obtain ⟨hless, hequal⟩ := List.getElem?_eq_some_iff.1 hnumber
  rw [← hequal, List.getElem_range]

/-- Two states with several transitions each way, entered out of order. -/
def parallelDfa : Dfa where
  states := #[
    { id := 0, accepting := true, transitions := [("c", 1), ("#", 0), ("ab", 1), ("b", 1)] },
    { id := 1, transitions := [("b", 0), ("a", 0)] }]
  alphabet := ["b"]
  start := some 1

theorem digraph_lossless_parallel :
    parallelDfa.start = some 1 ∧ parallelDfa.Numbered ∧
    (∀ source symbol target, parallelDfa.HasTransition source symbol target →
      ',' ∉ symbol.toList) ∧
    parallelDfa.Merges 1 (parallelDfa.digraph "DFA").statements ∧
    parallelDfa.ShownBy 1 (parallelDfa.digraph "DFA").statements := by
  have hids : parallelDfa.Numbered := numbered_of_ids (by decide)
  have hentries : ∀ state ∈ parallelDfa.states, ∀ entry ∈ state.transitions,
      ',' ∉ entry.1.toList := by decide
  have hcomma : ∀ source symbol target, parallelDfa.HasTransition source symbol target →
      ',' ∉ symbol.toList := by
    rintro source symbol target ⟨state, hstate, hentry⟩
    exact hentries state (Array.mem_iff_getElem?.2 ⟨source, hstate⟩) _ hentry
  obtain ⟨hmerges, hshown⟩ := digraph_lossless rfl hids "DFA"
  exact ⟨rfl, hids, hcomma, hmerges, hshown hcomma⟩

end Dfa
end RegexAutomata
