import RegexAutomata.Collection.Table
import RegexAutomata.Exploration
import RegexAutomata.Failure

/-!
# Deterministic automata

States are numbered by their place, and each has at most one transition for a symbol.  A missing
transition rejects.  A state may carry the set it stands for: tree positions, or states of a
nondeterministic automaton.
-/

namespace RegexAutomata

structure Dfa.State where
  /-- The number under which the state is shown. -/
  id : Nat
  accepting : Bool := false
  transitions : Table String Nat := []
  /-- The tree positions that the state stands for. -/
  positions : Option (List Int) := none
  /-- The states of a nondeterministic automaton that the state stands for. -/
  nfaStates : Option (List Int) := none
  deriving DecidableEq, Repr, Inhabited

/-- A deterministic automaton.  Without states it has no start and accepts nothing. -/
structure Dfa where
  states : Array Dfa.State
  alphabet : List String
  start : Option Nat
  deriving DecidableEq, Repr

namespace Dfa

def empty (alphabet : List String) : Dfa :=
  ⟨#[], alphabet, none⟩

/-- An automaton that starts at a given state, if there is any state at all. -/
def ofStates (states : Array State) (alphabet : List String) (start : Nat) : Dfa :=
  ⟨states, alphabet, if states.isEmpty then none else some start⟩

def isEmpty (dfa : Dfa) : Bool :=
  dfa.start.isNone

/-- The shown numbers of the accepting states. -/
def acceptingStates (dfa : Dfa) : List Nat :=
  (dfa.states.toList.filter State.accepting).map State.id

def state? (dfa : Dfa) (index : Nat) : Except Failure State :=
  match dfa.states[index]? with
  | some state => .ok state
  | none => .error .noSuchState

theorem state?_eq_ok_iff {dfa : Dfa} {index : Nat} {state : State} :
    dfa.state? index = .ok state ↔ dfa.states[index]? = some state := by
  unfold state?
  split <;> simp_all

/-- Where a transition leads. -/
def next (dfa : Dfa) (index : Nat) (symbol : String) : Except Failure (Option Nat) := do
  return Table.value? symbol (← dfa.state? index).transitions

def acceptsFrom (dfa : Dfa) (index : Nat) : List Char → Except Failure Bool
  | [] => do return (← dfa.state? index).accepting
  | character :: rest => do
    match ← dfa.next index (String.singleton character) with
    | none => return false
    | some target => dfa.acceptsFrom target rest

/-- The automaton accepts a text, read character by character. -/
def accepts (dfa : Dfa) (text : String) : Except Failure Bool :=
  match dfa.start with
  | none => .ok false
  | some start => dfa.acceptsFrom start text.toList

/-- The automaton that a search has found: one state for each key, numbered as in the search. -/
def ofExploration {κ : Type} [Ord κ] (exploration : Exploration κ) (alphabet : List String)
    (state : Nat → κ → Table String Nat → State) : Dfa :=
  let states := exploration.entries.mapIdx fun number entry =>
    state number entry.1 (entry.2.map fun edge => (edge.symbol, edge.target))
  ofStates states.toArray alphabet 0

end Dfa
end RegexAutomata
