import RegexAutomata.Proofs.Collection.Traversal
import RegexAutomata.Proofs.Nfa.Reachability

/-!
# Closures, moves and the alphabet

The closure of a set is what paths reach that spell nothing, and a move is one edge.  Where no edge
leads to a state that does not exist, neither fails, and the alphabet holds every symbol on an edge
of a state that can be reached.
-/

namespace RegexAutomata.Nfa

variable {nfa : Nfa}

def Adjacent (nfa : Nfa) (source target : StateNumber) : Prop :=
  ∃ symbol, nfa.Edge source symbol target

def Reachable (nfa : Nfa) (id : StateNumber) : Prop :=
  Relation.ReflTransGen nfa.Adjacent nfa.start id

/-- Every state that edges lead to from the start exists. -/
def Intact (nfa : Nfa) : Prop :=
  ∀ id, nfa.Reachable id → nfa.Exists id

instance (nfa : Nfa) (id : StateNumber) : Decidable (nfa.Exists id) :=
  inferInstanceAs (Decidable ((nfa.find? id).isSome = true))

theorem State.mem_targets {state : State} {symbol : String} {id : StateNumber} :
    id ∈ state.targets symbol ↔ ∃ set, (symbol, set) ∈ state.edges ∧ id ∈ set := by
  rw [State.targets]
  cases hvalue : Table.value? symbol state.edges with
  | none =>
    simp only [Option.getD_none, List.not_mem_nil, false_iff]
    rintro ⟨set, hset, -⟩
    simp [(Table.value?_eq_some_iff state.nodup_symbols).2 hset] at hvalue
  | some known =>
    simp only [Option.getD_some, ← Table.value?_eq_some_iff state.nodup_symbols, hvalue]
    simp

theorem State.mem_allTargets {state : State} {id : StateNumber} :
    id ∈ state.allTargets ↔ ∃ symbol, id ∈ state.targets symbol := by
  simp only [State.mem_targets, State.allTargets, Ascending.mem_unions, List.mem_map]
  constructor
  · rintro ⟨_, ⟨⟨symbol, set⟩, hentry, rfl⟩, hid⟩
    exact ⟨symbol, set, hentry, hid⟩
  · rintro ⟨symbol, set, hentry, hid⟩
    exact ⟨set, ⟨(symbol, set), hentry, rfl⟩, hid⟩

theorem State.ascending_of_symbol (state : State) (symbol : String) :
    (state.targets symbol).Pairwise (· < ·) := by
  rw [State.targets]
  cases hvalue : Table.value? symbol state.edges with
  | none => exact List.Pairwise.nil
  | some set => exact state.ascending_targets _ (Table.mem_of_value?_eq_some hvalue)

theorem State.nodup_allTargets (state : State) : state.allTargets.Nodup :=
  Ascending.nodup_of_pairwise (Ascending.pairwise_unions _)

theorem leads_allTargets_iff {source target : StateNumber} :
    nfa.Leads State.allTargets source target ↔ nfa.Adjacent source target := by
  constructor
  · rintro ⟨state, hstate, htarget⟩
    obtain ⟨symbol, hsymbol⟩ := State.mem_allTargets.1 htarget
    exact ⟨symbol, state, hstate, hsymbol⟩
  · rintro ⟨symbol, state, hstate, htarget⟩
    exact ⟨state, hstate, State.mem_allTargets.2 ⟨symbol, htarget⟩⟩

theorem reaches_allTargets_iff {id : StateNumber} :
    nfa.Reaches State.allTargets nfa.start id ↔ nfa.Reachable id := by
  have hleads : nfa.Leads State.allTargets = nfa.Adjacent := by
    funext source target
    exact propext leads_allTargets_iff
  rw [Reaches, Reachable, hleads]

/-- A path that spells nothing follows silent edges only. -/
theorem path_nil_iff {source target : StateNumber} :
    nfa.Path source [] target ↔ nfa.Reaches (fun state => state.targets epsilon) source target := by
  constructor
  · intro hpath
    generalize hword : ([] : List String) = word at hpath
    induction hpath with
    | nil => exact .refl
    | silent hedge _ ih => exact .head hedge (ih hword)
    | read => cases hword
  · intro hreaches
    induction hreaches using Relation.ReflTransGen.head_induction_on with
    | refl => exact .nil _
    | head hedge _ ih => exact .silent hedge ih

/-- A path that spells a word reads its first symbol somewhere. -/
theorem path_cons_iff {source target : StateNumber} {symbol : String} {rest : List String} :
    nfa.Path source (symbol :: rest) target ↔
      ∃ before, nfa.Path source [] before ∧ symbol ≠ epsilon ∧
        ∃ after, nfa.Edge before symbol after ∧ nfa.Path after rest target := by
  constructor
  · intro hpath
    generalize hword : symbol :: rest = word at hpath
    induction hpath with
    | nil => cases hword
    | silent hedge _ ih =>
      obtain ⟨before, hbefore, hsymbol, hrest⟩ := ih hword
      exact ⟨before, .silent hedge hbefore, hsymbol, hrest⟩
    | read hsymbol hedge hrest =>
      cases hword
      exact ⟨_, .nil _, hsymbol, _, hedge, hrest⟩
  · rintro ⟨before, hbefore, hsymbol, after, hedge, hrest⟩
    exact hbefore.append (.read hsymbol hedge hrest)

theorem Reachable.path {source target : StateNumber} {word : List String}
    (hsource : nfa.Reachable source) (hpath : nfa.Path source word target) :
    nfa.Reachable target := by
  induction hpath with
  | nil => exact hsource
  | silent hedge _ ih => exact ih (hsource.tail ⟨_, hedge⟩)
  | read _ hedge _ ih => exact ih (hsource.tail ⟨_, hedge⟩)

theorem Edge.mem_states {source target : StateNumber} {symbol : String}
    (hedge : nfa.Edge source symbol target) :
    ∃ state ∈ nfa.states.toList, target ∈ state.targets symbol := by
  obtain ⟨state, hstate, htarget⟩ := hedge
  obtain ⟨place, -, hplace⟩ := Option.bind_eq_some_iff.1 hstate
  exact ⟨state, Array.mem_toList_iff.2 (Array.mem_of_getElem? hplace), htarget⟩

/-- What holds of the start and of all targets holds of whatever can be reached. -/
theorem forall_reachable {motive : StateNumber → Prop} (hstart : motive nfa.start)
    (htargets : ∀ state ∈ nfa.states.toList, ∀ entry ∈ state.edges, ∀ target ∈ entry.2,
      motive target) : ∀ id, nfa.Reachable id → motive id := by
  intro id hreachable
  cases hreachable with
  | refl => exact hstart
  | tail _ hadjacent =>
    obtain ⟨symbol, hedge⟩ := hadjacent
    obtain ⟨state, hstate, htarget⟩ := hedge.mem_states
    obtain ⟨entry, hentry, hid⟩ := State.mem_targets.1 htarget
    exact htargets state hstate (symbol, entry) hentry id hid

/-- It is enough that the start and all targets exist, also those of states out of reach. -/
theorem intact_of_targets (hstart : nfa.Exists nfa.start)
    (htargets : ∀ state ∈ nfa.states.toList, ∀ entry ∈ state.edges, ∀ target ∈ entry.2,
      nfa.Exists target) : nfa.Intact :=
  forall_reachable hstart htargets

/-- The closure of reachable states is what paths reach from them that spell nothing. -/
theorem closure_eq (hintact : nfa.Intact) {ids : List StateNumber}
    (hids : ∀ id ∈ ids, nfa.Reachable id) :
    ∃ closed, nfa.closure ids = .ok closed ∧ closed.Pairwise (· < ·) ∧
      ∀ id, id ∈ closed ↔ ∃ first ∈ ids, nfa.Path first [] id := by
  simp only [path_nil_iff]
  apply reach_of_exists
  · exact fun state => Ascending.nodup_of_pairwise (state.ascending_of_symbol epsilon)
  · intro first hfirst id hreaches
    exact hintact id ((hids first hfirst).path (path_nil_iff.2 hreaches))

theorem targets_eq_ok_iff {id : StateNumber} {symbol : String} {set : List StateNumber} :
    nfa.targets id symbol = .ok set ↔
      ∃ state, nfa.find? id = some state ∧ state.targets symbol = set := by
  cases hstate : nfa.find? id with
  | none => simp [targets, state?, hstate, bind, Except.bind]
  | some state => simp [targets, state?, hstate, bind, Except.bind, pure, Except.pure]

/-- A move from existing states collects the targets of their edges. -/
theorem move_eq {ids : List StateNumber} (hids : ∀ id ∈ ids, nfa.Exists id) (symbol : String) :
    ∃ moved, nfa.move ids symbol = .ok moved ∧
      ∀ id, id ∈ moved ↔ ∃ first ∈ ids, nfa.Edge first symbol id := by
  have htargets : ∀ id ∈ ids, ∃ set, nfa.targets id symbol = .ok set := by
    intro id hid
    obtain ⟨state, hstate⟩ := Option.isSome_iff_exists.1 (hids id hid)
    exact ⟨_, targets_eq_ok_iff.2 ⟨state, hstate, rfl⟩⟩
  obtain ⟨sets, hsets, hmem⟩ := Traversal.mapM_of_forall htargets
  refine ⟨Ascending.unions sets, ?_, fun id => ?_⟩
  · simp [move, hsets, bind, Except.bind, pure, Except.pure]
  · rw [Ascending.mem_unions]
    constructor
    · rintro ⟨set, hset, hid⟩
      obtain ⟨first, hfirst, htargets⟩ := (hmem set).1 hset
      obtain ⟨state, hstate, rfl⟩ := targets_eq_ok_iff.1 htargets
      exact ⟨first, hfirst, state, hstate, hid⟩
    · rintro ⟨first, hfirst, state, hstate, hid⟩
      exact ⟨_, (hmem _).2 ⟨first, hfirst, targets_eq_ok_iff.2 ⟨state, hstate, rfl⟩⟩, hid⟩

/-- The search through all edges fails at a state that does not exist, or finds what can be
reached. -/
theorem reach_allTargets (nfa : Nfa) :
    (¬ nfa.Intact ∧ nfa.reach State.allTargets [nfa.start] = .error .noSuchState) ∨
      (nfa.Intact ∧ ∃ reached, nfa.reach State.allTargets [nfa.start] = .ok reached ∧
        ∀ id, id ∈ reached ↔ nfa.Reachable id) := by
  rcases @reach_spec nfa _ State.nodup_allTargets [nfa.start] with
    ⟨reached, hreached, -, hmem, hexists⟩ | ⟨hfails, first, hfirst, id, hreaches, habsent⟩
  · have hreachable : ∀ id, id ∈ reached ↔ nfa.Reachable id := by
      intro id
      rw [hmem, ← reaches_allTargets_iff]
      simp
    exact Or.inr ⟨fun id hid => hexists id ((hreachable id).2 hid), reached, hreached, hreachable⟩
  · rw [List.mem_singleton.1 hfirst, reaches_allTargets_iff] at hreaches
    exact Or.inl ⟨fun hintact => habsent (hintact id hreaches), hfails⟩

/-- The alphabet holds the symbols listed by the states that can be reached. -/
theorem alphabet_eq (hintact : nfa.Intact) :
    ∃ symbols, nfa.alphabet = .ok symbols ∧ ∀ symbol, symbol ∈ symbols ↔
      symbol ≠ epsilon ∧ ∃ id state, nfa.Reachable id ∧ nfa.find? id = some state ∧
        symbol ∈ state.edges.map Prod.fst := by
  obtain ⟨reached, hreached, hreachable⟩ :=
    (reach_allTargets nfa).elim (fun hstray => absurd hintact hstray.1) And.right
  have hstates : ∀ id ∈ reached, ∃ state, nfa.state? id = .ok state := by
    intro id hid
    obtain ⟨state, hstate⟩ := Option.isSome_iff_exists.1 (hintact id ((hreachable id).1 hid))
    exact ⟨state, state?_eq_ok_iff.2 hstate⟩
  obtain ⟨states, hvisited, hfound⟩ := Traversal.mapM_of_forall hstates
  have halphabet : nfa.alphabet = .ok (Ascending.ofList ((states.flatMap fun state =>
      state.edges.map Prod.fst).filter fun symbol => symbol ≠ epsilon)) := by
    simp [alphabet, hreached, hvisited, bind, Except.bind, pure, Except.pure]
  refine ⟨_, halphabet, fun symbol => ?_⟩
  rw [Ascending.mem_ofList, List.mem_filter, List.mem_flatMap, and_comm]
  apply and_congr
  · exact decide_eq_true_iff
  · constructor
    · rintro ⟨state, hstate, hsymbol⟩
      obtain ⟨id, hid, hstate⟩ := (hfound state).1 hstate
      exact ⟨id, state, (hreachable id).1 hid, state?_eq_ok_iff.1 hstate, hsymbol⟩
    · rintro ⟨id, state, hid, hstate, hsymbol⟩
      exact ⟨state, (hfound state).2 ⟨id, (hreachable id).2 hid, state?_eq_ok_iff.2 hstate⟩,
        hsymbol⟩

theorem Edge.symbol_mem {source target : StateNumber} {symbol : String}
    (hedge : nfa.Edge source symbol target) :
    ∃ state, nfa.find? source = some state ∧ symbol ∈ state.edges.map Prod.fst := by
  obtain ⟨state, hstate, htarget⟩ := hedge
  obtain ⟨set, hentry, -⟩ := State.mem_targets.1 htarget
  exact ⟨state, hstate, List.mem_map.2 ⟨(symbol, set), hentry, rfl⟩⟩

end RegexAutomata.Nfa
