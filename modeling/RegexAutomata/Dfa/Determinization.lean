import RegexAutomata.Dfa.Basic
import RegexAutomata.Nfa.Reach

/-!
# Determinization by sets of states

A deterministic state stands for the set of all nondeterministic states reachable by the same
word.  The empty set gets no state: where it would be reached, the transition is missing.
-/

namespace RegexAutomata

/-- The set reached from a set by one symbol, unless it is empty. -/
def Nfa.step (nfa : Nfa) (key : List StateNumber) (symbol : String) :
    Except Failure (Option (List StateNumber)) := do
  let moved ← nfa.move key symbol
  if moved.isEmpty then return none
  return some (← nfa.closure moved)

namespace Dfa

/-- The deterministic automaton of a nondeterministic one.  There are fewer non-empty sets of
state numbers, two for each state, than the fuel allows steps. -/
def ofNfa (nfa : Nfa) (limit : Option Int) : Except Failure Dfa := do
  let symbols ← nfa.alphabet
  let first ← nfa.closure [nfa.start]
  let exploration ←
    Exploration.run nfa.step limit symbols (Nat.pow 2 (2 * nfa.states.size)) first
  return ofExploration exploration symbols fun id key transitions =>
    { id, accepting := key.any nfa.isAccepting, transitions, nfaStates := some key }

structure Cell where
  state : Nat
  set : List StateNumber
  deriving DecidableEq, Repr

structure Row where
  origin : Cell
  targets : List (String × Option Cell)
  deriving DecidableEq, Repr

def nfaStatesAt (dfa : Dfa) (index : Nat) : List StateNumber :=
  (dfa.states[index]?.bind State.nfaStates).getD []

/-- The conversion table has a row for each state and in it a cell for each symbol. -/
def conversionTable (dfa : Dfa) : List Row :=
  dfa.states.toList.map fun state =>
    { origin := ⟨state.id, state.nfaStates.getD []⟩
      targets := dfa.alphabet.map fun symbol =>
        (symbol, (Table.value? symbol state.transitions).map fun target =>
          ⟨target, dfa.nfaStatesAt target⟩) }

end Dfa
end RegexAutomata
