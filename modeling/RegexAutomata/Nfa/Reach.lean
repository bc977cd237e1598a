import RegexAutomata.Nfa.Basic

/-!
# What can be reached in an automaton

The states reachable from given ones along chosen edges, and what follows from them: the symbols
in use, the closure under moves that read nothing, and the states after reading one symbol.
Walking to a state that does not exist is a failure.
-/

namespace RegexAutomata.Nfa

/-- Follows `next` from every pending number until nothing new turns up.  All pending numbers have
been visited already.  Each step either fails or takes the number of an existing state from the
pending ones, each number at most once.  A state has two numbers, so one step more than twice as
many as there are states is always enough. -/
def reachFrom (next : StateNumber → Except Failure (List StateNumber)) :
    Nat → List StateNumber → List StateNumber → Except Failure (List StateNumber)
  | 0, _, visited => .ok visited
  | _ + 1, [], visited => .ok visited
  | fuel + 1, id :: pending, visited => do
    let targets ← next id
    let fresh := targets.filter fun target => target ∉ visited
    reachFrom next fuel (fresh ++ pending) (Ascending.union fresh visited)

/-- The states reachable from given ones, themselves included. -/
def reach (nfa : Nfa) (next : State → List StateNumber) (ids : List StateNumber) :
    Except Failure (List StateNumber) :=
  let start := Ascending.ofList ids
  reachFrom (fun id => do return next (← nfa.state? id)) (2 * nfa.states.size + 1) start start

/-- The symbols on edges of reachable states, without the one that reads nothing. -/
def alphabet (nfa : Nfa) : Except Failure (List String) := do
  let reached ← nfa.reach State.allTargets [nfa.start]
  let states ← reached.mapM nfa.state?
  let symbols := states.flatMap fun state => state.edges.map Prod.fst
  return Ascending.ofList (symbols.filter fun symbol => symbol ≠ epsilon)

/-- All states reachable from given ones by moves that read nothing. -/
def closure (nfa : Nfa) (ids : List StateNumber) : Except Failure (List StateNumber) :=
  nfa.reach (fun state => state.targets epsilon) ids

def move (nfa : Nfa) (ids : List StateNumber) (symbol : String) :
    Except Failure (List StateNumber) := do
  return Ascending.unions (← ids.mapM fun id => nfa.targets id symbol)

/-- The states after reading a symbol, with all moves that read nothing after it. -/
def read (nfa : Nfa) (ids : List StateNumber) (symbol : String) :
    Except Failure (List StateNumber) := do
  nfa.closure (← nfa.move ids symbol)

end RegexAutomata.Nfa
