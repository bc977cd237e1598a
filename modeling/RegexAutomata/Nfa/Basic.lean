import RegexAutomata.Collection.Ascending
import RegexAutomata.Collection.Place
import RegexAutomata.Collection.Table
import RegexAutomata.Failure

/-!
# Nondeterministic automata

States are looked up by their place, from the front or, below zero, from the end.  The number that a
state carries is for reports and pictures.  Each state lists its edges by symbol, with the set of
target numbers for each; a target need not exist.  One symbol is reserved for moves that read
nothing.
-/

namespace RegexAutomata

/-- The symbol of a move that reads nothing. -/
def epsilon : String := "ε"

/-- The number of a state.  Sets hold numbers as they are written, so that a state is there twice
if it is named from the front and from the end. -/
abbrev StateNumber := Int

namespace Nfa

theorem nodup_symbols_nil : (([] : Table String (List StateNumber)).map Prod.fst).Nodup :=
  List.Pairwise.nil

theorem ascending_targets_nil :
    ∀ entry ∈ ([] : Table String (List StateNumber)), entry.2.Pairwise (· < ·) :=
  List.forall_mem_nil _

/-- A state and its outgoing edges.  Each symbol is listed once, with the set of its targets. -/
structure State where
  id : Nat
  accepting : Bool := false
  edges : Table String (List StateNumber) := []
  nodup_symbols : (edges.map Prod.fst).Nodup := by exact Nfa.nodup_symbols_nil
  ascending_targets : ∀ entry ∈ edges, entry.2.Pairwise (· < ·) := by
    exact Nfa.ascending_targets_nil
  deriving DecidableEq, Repr

instance : Inhabited State :=
  ⟨{ id := 0 }⟩

def State.targets (state : State) (symbol : String) : List StateNumber :=
  (Table.value? symbol state.edges).getD []

def State.allTargets (state : State) : List StateNumber :=
  Ascending.unions (state.edges.map Prod.snd)

def State.link (symbol : String) (target : StateNumber) (state : State) : State where
  id := state.id
  accepting := state.accepting
  edges := Table.alter symbol (fun known => Ascending.insert target (known.getD [])) state.edges
  nodup_symbols := Table.nodup_keys_alter state.nodup_symbols symbol _
  ascending_targets := by
    refine Table.forall_alter ?_ (fun set hset => ?_) state.ascending_targets
    · exact Ascending.pairwise_insert List.Pairwise.nil
    · exact Ascending.pairwise_insert hset

def State.accept (state : State) : State :=
  { state with accepting := true }

end Nfa

/-- A nondeterministic automaton with one start state.  The construction that made it ends in the
state `finish`; which states accept is written in the states. -/
structure Nfa where
  states : Array Nfa.State
  start : StateNumber
  finish : StateNumber
  deriving DecidableEq, Repr

namespace Nfa

def find? (nfa : Nfa) (id : StateNumber) : Option State :=
  (Place.ofNumber? nfa.states.size id).bind fun place => nfa.states[place]?

def state? (nfa : Nfa) (id : StateNumber) : Except Failure State :=
  match nfa.find? id with
  | some state => .ok state
  | none => .error .noSuchState

/-- Counted from the front, the number of a state is its place. -/
theorem find?_natCast (nfa : Nfa) (place : Nat) :
    nfa.find? (place : Int) = nfa.states[place]? := by
  by_cases hplace : place < nfa.states.size
  · simp [find?, Place.ofNumber?_natCast hplace]
  · simp [find?, Place.ofNumber?, hplace]

theorem state?_eq_ok_iff {nfa : Nfa} {id : StateNumber} {state : State} :
    nfa.state? id = .ok state ↔ nfa.find? id = some state := by
  unfold state?
  split <;> simp_all

def targets (nfa : Nfa) (id : StateNumber) (symbol : String) :
    Except Failure (List StateNumber) := do
  return (← nfa.state? id).targets symbol

/-- The state exists and accepts. -/
def isAccepting (nfa : Nfa) (id : StateNumber) : Bool :=
  (nfa.find? id).any State.accepting

@[simp]
theorem State.mem_targets_link {state : State} {symbol other : String}
    {target id : StateNumber} :
    id ∈ (state.link symbol target).targets other ↔
      (other = symbol ∧ id = target) ∨ id ∈ state.targets other := by
  by_cases hsymbol : symbol = other
  · subst hsymbol
    simp [State.targets, State.link, Table.value?_alter]
  · simp [State.targets, State.link, Table.value?_alter, hsymbol, Ne.symm hsymbol]

end Nfa
end RegexAutomata
