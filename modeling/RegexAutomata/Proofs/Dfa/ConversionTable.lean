import RegexAutomata.Json.Report
import RegexAutomata.Proofs.Dfa.Representation

/-!
# The conversion table

A row of the conversion table shows the set that a state stands for, and for each symbol the set to
which the symbol leads from there.  These are the closure of the move by the symbol, and nothing
where the move is empty.  The columns of a row do not get into each other's way unless a symbol is
the empty text, and no two rows show the same set.
-/

namespace RegexAutomata

open Exploration

/-- The member of an object that counts under a name, which is the last one. -/
def Json.column? (value : Json) (name : String) : Option Json :=
  Table.value? name value.members.reverse

theorem Json.integers_injective : Function.Injective Json.integers := by
  intro left right hequal
  refine List.map_injective_iff.2 (fun first second hsame => ?_) (Json.array.inj hequal)
  exact Json.integer.inj hsame

namespace Nfa

variable {nfa : Nfa} {key : List StateNumber}

/-- A step of the determinization is a move and, unless that is empty, its closure. -/
theorem step_cases (hintact : nfa.Intact) (hkey : ∀ id ∈ key, nfa.Reachable id) (symbol : String) :
    ∃ moved, nfa.move key symbol = .ok moved ∧
      ((moved = [] ∧ nfa.step key symbol = .ok none) ∨
        (moved ≠ [] ∧ ∃ closed, nfa.closure moved = .ok closed ∧
          nfa.step key symbol = .ok (some closed))) := by
  obtain ⟨moved, hmoved, hmem⟩ := move_eq (fun id hid => hintact id (hkey id hid)) symbol
  have htargets : ∀ id ∈ moved, nfa.Reachable id := by
    intro id hid
    obtain ⟨before, hbefore, hedge⟩ := (hmem id).1 hid
    exact (hkey before hbefore).tail ⟨symbol, hedge⟩
  obtain ⟨closed, hclosed, -⟩ := closure_eq hintact htargets
  refine ⟨moved, hmoved, ?_⟩
  rw [step, hmoved]
  cases moved with
  | nil => exact Or.inl ⟨rfl, rfl⟩
  | cons id rest =>
    refine Or.inr ⟨List.cons_ne_nil _ _, closed, hclosed, ?_⟩
    simp [hclosed, bind, Except.bind, pure, Except.pure]

end Nfa

namespace Dfa

namespace Row

variable {row : Row}

/-- The names of the columns are different if the symbols are, and none of these is empty. -/
theorem nodup_names (hsymbols : (row.targets.map Prod.fst).Nodup)
    (hnonempty : "" ∉ row.targets.map Prod.fst) : (row.toJson.members.map Prod.fst).Nodup := by
  have hnames : row.toJson.members.map Prod.fst =
      "S" :: "I" :: (row.targets.map Prod.fst).map ("I" ++ ·) := by
    simp [toJson, Json.members, Function.comp_def]
  have hinjective : Function.Injective ("I" ++ ·) := fun left right hequal => by
    simpa [← String.toList_inj] using hequal
  rw [hnames, List.nodup_cons, List.nodup_cons, List.mem_cons, List.mem_map, List.mem_map, not_or]
  refine ⟨⟨by decide, ?_⟩, ?_, hsymbols.map hinjective⟩
  · rintro ⟨symbol, -, hequal⟩
    have hfirst := congrArg (fun text => text.toList.head?) hequal
    simp at hfirst
  · rintro ⟨symbol, hsymbol, hequal⟩
    obtain rfl : symbol = "" := hinjective (hequal.trans String.append_empty.symm)
    exact hnonempty hsymbol

theorem column?_eq_some_iff (hnames : (row.toJson.members.map Prod.fst).Nodup) {name : String}
    {value : Json} : row.toJson.column? name = some value ↔ (name, value) ∈ row.toJson.members := by
  have hreverse : (row.toJson.members.reverse.map Prod.fst).Nodup := by
    rwa [List.map_reverse, List.nodup_reverse]
  rw [Json.column?, Table.value?_eq_some_iff hreverse, List.mem_reverse]

theorem column?_state (hnames : (row.toJson.members.map Prod.fst).Nodup) :
    row.toJson.column? "S" = some (.natural row.origin.state) :=
  (column?_eq_some_iff hnames).2 (by simp [toJson, Json.members])

theorem column?_set (hnames : (row.toJson.members.map Prod.fst).Nodup) :
    row.toJson.column? "I" = some (.integers row.origin.set) :=
  (column?_eq_some_iff hnames).2 (by simp [toJson, Json.members])

/-- The empty symbol would take the column of the set. -/
example : (toJson ⟨⟨0, [0, 1]⟩, [("", none)]⟩).column? "I" = some .null := rfl

theorem column?_symbol (hnames : (row.toJson.members.map Prod.fst).Nodup) {symbol : String}
    {cell : Option Cell} (hcell : (symbol, cell) ∈ row.targets) :
    row.toJson.column? ("I" ++ symbol) = some (.optional (cell.map Cell.toJson)) := by
  refine (column?_eq_some_iff hnames).2 (List.mem_append_right _ ?_)
  exact List.mem_map.2 ⟨(symbol, cell), hcell, rfl⟩

end Row

def tableReport (dfa : Dfa) : List Json :=
  dfa.conversionTable.map Row.toJson

def rowOf (dfa : Dfa) (state : State) : Row :=
  { origin := ⟨state.id, state.nfaStates.getD []⟩
    targets := dfa.alphabet.map fun symbol =>
      (symbol, (Table.value? symbol state.transitions).map fun target =>
        ⟨target, dfa.nfaStatesAt target⟩) }

theorem getElem?_tableReport (dfa : Dfa) (number : Nat) :
    dfa.tableReport[number]? = dfa.states[number]?.map fun state => (dfa.rowOf state).toJson := by
  rw [tableReport, conversionTable, List.getElem?_map, List.getElem?_map, Array.getElem?_toList,
    Option.map_map]
  rfl

theorem symbols_rowOf (dfa : Dfa) (state : State) :
    (dfa.rowOf state).targets.map Prod.fst = dfa.alphabet := by
  simp [rowOf, Function.comp_def]

/-- The states stand for the sets that moves and closures lead to, from the closure of the start
on. -/
structure Follows (dfa : Dfa) (nfa : Nfa) : Prop where
  first : ∃ state closed, dfa.states[0]? = some state ∧ nfa.closure [nfa.start] = .ok closed ∧
    state.nfaStates = some closed
  step : ∀ (number : Nat) (state : State), dfa.states[number]? = some state → ∃ set,
    state.nfaStates = some set ∧ ∀ symbol ∈ dfa.alphabet, ∃ moved, nfa.move set symbol = .ok moved ∧
      ((moved = [] ∧ Table.value? symbol state.transitions = none) ∨
        (moved ≠ [] ∧ ∃ closed target other, nfa.closure moved = .ok closed ∧
          closed.Pairwise (· < ·) ∧ Table.value? symbol state.transitions = some target ∧
          dfa.states[target]? = some other ∧ other.nfaStates = some closed))

theorem exists_subsetState (nfa : Nfa) (symbols : List String)
    {exploration : Exploration (List StateNumber)} {number : Nat} {key : List StateNumber}
    (hkey : exploration.found.key? number = some key) :
    ∃ state, (ofExploration exploration symbols (subsetState nfa)).states[number]? = some state ∧
      state.nfaStates = some key := by
  have hstate := @getElem?_states_ofExploration _ _ exploration symbols (subsetState nfa) number
  rw [hkey, Option.map_some] at hstate
  exact ⟨_, hstate, rfl⟩

/-- The states of a complete search through sets follow its steps. -/
theorem follows_ofExploration {nfa : Nfa} (hintact : nfa.Intact) {symbols : List String}
    {whole : Finset Int} {first : List StateNumber} {exploration : Exploration (List StateNumber)}
    (hwhole : ∀ id, id ∈ whole ↔ nfa.Reachable id)
    (hcollects : Collects nfa.step symbols nfa.Reads whole) (hascending : first.Pairwise (· < ·))
    (hwithin : ∀ id ∈ first, id ∈ whole) (hfirst : nfa.closure [nfa.start] = .ok first)
    (hcomplete : Complete nfa.step symbols first exploration) :
    (ofExploration exploration symbols (subsetState nfa)).Follows nfa where
  first := by
    obtain ⟨state, hstate, hset⟩ := exists_subsetState nfa symbols hcomplete.first_key
    exact ⟨state, first, hstate, hfirst, hset⟩
  step number state hstate := by
    obtain ⟨key, row, hkey, hrow, rfl⟩ := exists_row_of_mem hcomplete hstate
    have hmembers := (hcollects.of_reachable hascending hwithin (hcomplete.sound number key hkey)).2
    refine ⟨key, rfl, fun symbol hsymbol => ?_⟩
    obtain ⟨moved, hmoved, hcases⟩ :=
      Nfa.step_cases hintact (fun id hid => (hwhole id).1 (hmembers id hid)) symbol
    refine ⟨moved, hmoved, hcases.imp ?_ ?_⟩
    · rintro ⟨hempty, hstep⟩
      refine ⟨hempty, Option.eq_none_iff_forall_ne_some.2 fun target htarget => ?_⟩
      obtain ⟨-, next, hnext, -⟩ := hrow.value?_eq_some_iff.1 htarget
      cases hstep.symm.trans hnext
    · rintro ⟨hnonempty, closed, hclosed, hstep⟩
      obtain ⟨target, htarget⟩ := hrow.exists_key hsymbol hstep
      have hordered :=
        (hcollects.of_reachable hascending hwithin (hcomplete.sound target closed htarget)).1
      obtain ⟨other, hother, hset⟩ := exists_subsetState nfa symbols htarget
      exact ⟨hnonempty, closed, target, other, hclosed, hordered,
        hrow.value?_eq_some_iff.2 ⟨hsymbol, closed, hstep, htarget⟩, hother, hset⟩

/-- The determinization represents sets of states, and follows the moves from set to set. -/
theorem exists_follows {nfa : Nfa} (hintact : nfa.Intact) :
    ∃ dfa, ofNfa nfa none = .ok dfa ∧ dfa.Follows nfa ∧
      dfa.Represents State.nfaStates (nfa.isAccepting · = true) := by
  obtain ⟨symbols, whole, first, exploration, hwhole, hcollects, hascending, hwithin, hmem, -,
    hcomplete, hmade⟩ := run_ofNfa hintact
  have hnonempty : first ≠ [] := List.ne_nil_of_mem ((hmem nfa.start).2 (.nil _))
  have hstart : ∀ id ∈ [nfa.start], nfa.Reachable id := by
    intro id hid
    rw [List.mem_singleton.1 hid]
    exact .refl
  obtain ⟨closed, hclosed, hordered, hclosure⟩ := Nfa.closure_eq hintact hstart
  obtain rfl : closed = first := hordered.eq_of_mem_iff hascending fun id => by
    simp only [hclosure, hmem, List.mem_singleton, exists_eq_left]
  exact ⟨_, hmade, follows_ofExploration hintact hwhole hcollects hascending hwithin hclosed
    hcomplete, represents_ofExploration hcollects hascending hwithin hnonempty hcomplete
    (pairwise_alphabet (alphabet_ofNfa hmade)) (faithful_subsetState nfa)⟩

/-- The rows of a table of these symbols show the closure of the start, and then the moves of the
automaton from set to set: a cell is empty where the move is, and else it shows the closure of the
move with the number of the one row of that set. -/
structure Tabulates (nfa : Nfa) (symbols : List String) (rows : List Json) : Prop where
  first : ∃ row closed, rows[0]? = some row ∧ nfa.closure [nfa.start] = .ok closed ∧
    closed.Pairwise (· < ·) ∧ row.column? "I" = some (.integers closed)
  cell : ∀ (number : Nat) (row : Json), rows[number]? = some row → ∃ set,
    row.column? "I" = some (.integers set) ∧ ∀ symbol ∈ symbols, ∃ moved,
      nfa.move set symbol = .ok moved ∧
      (row.column? ("I" ++ symbol) = some .null ↔ moved = []) ∧
      (moved ≠ [] → ∃ closed target, nfa.closure moved = .ok closed ∧ closed.Pairwise (· < ·) ∧
        row.column? ("I" ++ symbol) =
          some (.object [("S", .natural target), ("I", .integers closed)]) ∧
        ∀ other, (∃ row, rows[other]? = some row ∧ row.column? "I" = some (.integers closed)) ↔
          other = target)

section Rows

variable {nfa : Nfa} {dfa : Dfa} {number : Nat} {state : State} {set : List StateNumber}

theorem set_rowOf (hset : state.nfaStates = some set) : (dfa.rowOf state).origin.set = set := by
  rw [rowOf, hset, Option.getD_some]

theorem mem_targets_rowOf {symbol : String} (hsymbol : symbol ∈ dfa.alphabet) (state : State) :
    (symbol, (Table.value? symbol state.transitions).map fun target =>
      (⟨target, dfa.nfaStatesAt target⟩ : Cell)) ∈ (dfa.rowOf state).targets :=
  List.mem_map.2 ⟨symbol, hsymbol, rfl⟩

theorem nfaStatesAt_eq (hstate : dfa.states[number]? = some state)
    (hset : state.nfaStates = some set) : dfa.nfaStatesAt number = set := by
  rw [nfaStatesAt, hstate, Option.bind_some, hset, Option.getD_some]

variable (hnames : ∀ state, ((dfa.rowOf state).toJson.members.map Prod.fst).Nodup)

include hnames

theorem column?_set_rowOf (hset : state.nfaStates = some set) :
    (dfa.rowOf state).toJson.column? "I" = some (.integers set) := by
  rw [Row.column?_set (hnames state), set_rowOf hset]

/-- The number of a state is the number of the one row that shows its set. -/
theorem shows_set_iff (hfollows : dfa.Follows nfa) {accepts : Int → Prop}
    (hrepresents : dfa.Represents State.nfaStates accepts)
    (hstate : dfa.states[number]? = some state) (hset : state.nfaStates = some set) (other : Nat) :
    (∃ row, dfa.tableReport[other]? = some row ∧ row.column? "I" = some (.integers set)) ↔
      other = number := by
  simp only [getElem?_tableReport, Option.map_eq_some_iff]
  constructor
  · rintro ⟨_, ⟨found, hfound, rfl⟩, hshown⟩
    obtain ⟨shown, hfoundSet, -⟩ := hfollows.step other found hfound
    rw [column?_set_rowOf hnames hfoundSet, Option.some.injEq] at hshown
    obtain rfl := Json.integers_injective hshown
    exact hrepresents.key_injective other number found state hfound hstate
      (hfoundSet.trans hset.symm)
  · rintro rfl
    exact ⟨_, ⟨state, hstate, rfl⟩, column?_set_rowOf hnames hset⟩

/-- The reported table says of each row what the automaton does from the set in it. -/
theorem tabulates_tableReport (hfollows : dfa.Follows nfa) {accepts : Int → Prop}
    (hrepresents : dfa.Represents State.nfaStates accepts) :
    Tabulates nfa dfa.alphabet dfa.tableReport where
  first := by
    obtain ⟨state, closed, hstate, hclosed, hset⟩ := hfollows.first
    obtain ⟨key, hkey, -, hordered, -⟩ :=
      hrepresents.exists_key state (Array.mem_of_getElem? hstate)
    obtain rfl := Option.some.inj (hkey.symm.trans hset)
    refine ⟨_, key, ?_, hclosed, hordered, column?_set_rowOf hnames hset⟩
    rw [getElem?_tableReport, hstate, Option.map_some]
  cell number row hrow := by
    rw [getElem?_tableReport, Option.map_eq_some_iff] at hrow
    obtain ⟨state, hstate, rfl⟩ := hrow
    obtain ⟨set, hset, hsteps⟩ := hfollows.step number state hstate
    refine ⟨set, column?_set_rowOf hnames hset, fun symbol hsymbol => ?_⟩
    obtain ⟨moved, hmoved, hcases⟩ := hsteps symbol hsymbol
    have hcell := Row.column?_symbol (hnames state) (mem_targets_rowOf hsymbol state)
    refine ⟨moved, hmoved, ?_⟩
    rcases hcases with ⟨rfl, hnone⟩ |
      ⟨hnonempty, closed, target, other, hclosed, hordered, htarget, hother, hsetOther⟩
    · rw [hnone] at hcell
      exact ⟨iff_of_true hcell rfl, fun hnonempty => absurd rfl hnonempty⟩
    · rw [htarget, Option.map_some, nfaStatesAt_eq hother hsetOther] at hcell
      refine ⟨iff_of_false (fun hnull => ?_) hnonempty, fun _ => ?_⟩
      · cases hcell.symm.trans hnull
      · exact ⟨closed, target, hclosed, hordered, hcell,
          shows_set_iff hnames hfollows hrepresents hother hsetOther⟩

end Rows

/-- If no edge leads from the start to a state that does not exist, and none has the empty text for
its symbol, then the conversion table of the determinization has a row for each state, in order,
and the rows tabulate the moves of the automaton. -/
theorem conversionTable_exact {nfa : Nfa} (hintact : nfa.Intact)
    (hnamed : ∀ state ∈ nfa.states, "" ∉ state.edges.map Prod.fst) :
    ∃ dfa, ofNfa nfa none = .ok dfa ∧ dfa.tableReport.length = dfa.states.size ∧
      (∀ (number : Nat) (row : Json), dfa.tableReport[number]? = some row → ∃ state set,
        dfa.states[number]? = some state ∧ state.nfaStates = some set ∧
        row.column? "S" = some (.natural number) ∧ row.column? "I" = some (.integers set)) ∧
      Tabulates nfa dfa.alphabet dfa.tableReport := by
  obtain ⟨dfa, hmade, hfollows, hrepresents⟩ := exists_follows hintact
  have hnonempty : "" ∉ dfa.alphabet := by
    intro hempty
    obtain ⟨symbols, hsymbols, halphabet⟩ := Nfa.alphabet_eq hintact
    obtain rfl := Except.ok.inj ((alphabet_ofNfa hmade).symm.trans hsymbols)
    obtain ⟨-, id, state, -, hstate, hlisted⟩ := (halphabet "").1 hempty
    obtain ⟨place, -, hplace⟩ := Option.bind_eq_some_iff.1 hstate
    exact hnamed state (Array.mem_of_getElem? hplace) hlisted
  have hnames : ∀ state, ((dfa.rowOf state).toJson.members.map Prod.fst).Nodup := by
    intro state
    apply Row.nodup_names <;> rw [symbols_rowOf]
    · exact hrepresents.alphabet_ascending.imp fun hless => Std.ne_of_lt hless
    · exact hnonempty
  refine ⟨dfa, hmade, ?_, fun number row hrow => ?_,
    tabulates_tableReport hnames hfollows hrepresents⟩
  · rw [tableReport, conversionTable, List.length_map, List.length_map, Array.length_toList]
  · rw [getElem?_tableReport, Option.map_eq_some_iff] at hrow
    obtain ⟨state, hstate, rfl⟩ := hrow
    obtain ⟨set, hset, -⟩ := hfollows.step number state hstate
    refine ⟨state, set, hstate, hset, ?_, column?_set_rowOf hnames hset⟩
    rw [Row.column?_state (hnames state), rowOf, hrepresents.id_eq number state hstate]

theorem conversionTable_exact_circleNfa :
    circleNfa.Intact ∧ (∀ state ∈ circleNfa.states, "" ∉ state.edges.map Prod.fst) ∧
      ∃ dfa, ofNfa circleNfa none = .ok dfa ∧ dfa.tableReport.length = dfa.states.size ∧
        Tabulates circleNfa dfa.alphabet dfa.tableReport := by
  have hintact : circleNfa.Intact := Nfa.intact_of_targets (by decide) (by decide)
  have hnamed : ∀ state ∈ circleNfa.states, "" ∉ state.edges.map Prod.fst := by decide
  obtain ⟨dfa, hmade, hlength, -, htable⟩ := conversionTable_exact hintact hnamed
  exact ⟨hintact, hnamed, dfa, hmade, hlength, htable⟩

end Dfa
end RegexAutomata
