import RegexAutomata.Dfa.Basic
import RegexAutomata.Dfa.Trace
import RegexAutomata.Position.AnnotatedRegex

/-!
# The direct construction

A deterministic automaton straight from a table of positions: a state stands for the set of
positions at which the next character may stand, and it accepts if the end marker may stand
there.  States are made as their sets turn up, and wait in a queue for their transitions.  What
happens is logged as it happens.
-/

namespace RegexAutomata

/-- A direct construction under way. -/
structure Draft where
  /-- The sets that have a state, numbered like their states. -/
  found : Numbering (List Position) := .empty
  states : Array Dfa.State := #[]
  /-- The numbers of the states that wait for their transitions; the first one is next. -/
  queue : List Nat := []
  log : Array TraceStep := #[]

namespace Draft

def note (draft : Draft) (step : TraceStep) : Draft :=
  { draft with log := draft.log.push step }

def enqueue (draft : Draft) (number : Nat) : Draft :=
  { draft with queue := draft.queue ++ [number] }

def connect (draft : Draft) (number : Nat) (symbol : String) (target : Nat) : Draft :=
  let enter (state : Dfa.State) : Dfa.State :=
    { state with transitions := Table.put state.transitions symbol target }
  { draft with states := draft.states.modify number enter }

/-- The number under which the state at a place is shown, and its set. -/
def state? (draft : Draft) (number : Nat) : Except Failure (Nat × List Position) :=
  match draft.states[number]? with
  | none => .error .noSuchState
  | some state =>
    match draft.found.key? state.id with
    | none => .error .noSuchState
    | some key => .ok (state.id, key)

end Draft

namespace FollowTable

/-- The state of a set of positions. -/
def stateOf (table : FollowTable) (id : Nat) (key : List Position)
    (transitions : Table String Nat) : Dfa.State :=
  { id, accepting := key.contains table.endPosition, transitions, positions := some key }

/-- Makes a state for a set that has none, if there is room. -/
def addState (table : FollowTable) (limit : Option Int) (draft : Draft) (key : List Position)
    (hnew : draft.found.number? key = none) : Except Failure Draft := do
  Exploration.room limit draft.states.size
  return { draft with
    found := draft.found.push key hnew
    states := draft.states.push (table.stateOf draft.states.size key []) }

/-- A construction starts with the state of the first set, which waits for its transitions. -/
def opening (table : FollowTable) (limit : Option Int) : Except Failure Draft := do
  let started ← table.addState limit {} table.first Numbering.number?_empty
  return (started.note (.initial table.first)).enqueue 0

/-- Finds the transition by one symbol from the state at a place, which is shown under a number and
stands for a set.  A symbol at no position of the set is passed over. -/
def addTransition (table : FollowTable) (limit : Option Int) (place number : Nat)
    (key : List Position) (draft : Draft) (symbol : String) : Except Failure Draft := do
  let contributing ← table.contributing key symbol
  if contributing.isEmpty then return draft
  let result ← table.followersOfAll contributing
  if result.isEmpty then
    return draft.note (.transition number symbol contributing result none false)
  match hknown : draft.found.number? result with
  | some target =>
    return (draft.connect place symbol target).note
      (.transition number symbol contributing result (some target) false)
  | none =>
    let target := draft.states.size
    let extended ← table.addState limit draft result hknown
    return ((extended.enqueue target).connect place symbol target).note
      (.transition number symbol contributing result (some target) true)

/-- Takes one state after the other out of the queue and finds its transitions, as long as the queue
is not empty and fuel lasts. -/
def work (table : FollowTable) (limit : Option Int) (symbols : List String) :
    Nat → Draft → Except Failure Draft
  | 0, draft => .ok draft
  | fuel + 1, draft =>
    match draft.queue with
    | [] => .ok draft
    | place :: queue => do
      let (number, key) ← draft.state? place
      let taken := { draft with queue }.note (.state number key)
      let extended ← symbols.foldlM (table.addTransition limit place number key) taken
      table.work limit symbols fuel extended

/-- The deterministic automaton of a table, and the log of its construction.  Every set but the
first is a union of followers, so there are fewer sets than the fuel allows steps. -/
def direct (table : FollowTable) (limit : Option Int) :
    Except Failure (Dfa × List TraceStep) := do
  let symbols := table.alphabet
  if table.first.isEmpty then return (Dfa.empty symbols, [.empty])
  let opened ← table.opening limit
  let draft ← table.work limit symbols (Nat.pow 2 table.follow.length + 2) opened
  return (Dfa.ofStates draft.states symbols 0, draft.log.toList)

end FollowTable

/-- The direct construction from a tree, which is annotated first. -/
def Regex.direct (regex : Regex) (limit : Option Int) : Except Failure (Dfa × List TraceStep) := do
  (← regex.annotate).table.direct limit

end RegexAutomata
