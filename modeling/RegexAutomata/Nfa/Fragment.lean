import RegexAutomata.Nfa.Basic
import RegexAutomata.Regex.Basic

/-!
# Automata put together from fragments

A growing store of states, an arena, holds fragments of an automaton.  A fragment is entered at
one state and left at another.  For each kind of tree node there is one way to make its fragment
from the fragments of its parts; the edges that join them read nothing.  A step that fails keeps
what it has already added to the arena.
-/

namespace RegexAutomata

abbrev Arena := Array Nfa.State

abbrev Assembly (α : Type) := ExceptT Failure (StateM Arena) α

/-- The part of an arena between two states. -/
structure Fragment where
  start : StateNumber
  finish : StateNumber
  deriving DecidableEq, Repr

namespace Assembly

/-- Adds a state without edges; its number is the next free one. -/
def addState : Assembly StateNumber :=
  ExceptT.mk fun arena => (.ok arena.size, arena.push { id := arena.size })

def change (id : StateNumber) (change : Nfa.State → Nfa.State) : Assembly Unit :=
  ExceptT.mk fun arena =>
    match Place.ofNumber? arena.size id with
    | some place => (.ok (), arena.modify place change)
    | none => (.error .noSuchState, arena)

/-- Adds an edge.  Only its source must exist. -/
def link (source target : StateNumber) (symbol : String) : Assembly Unit :=
  change source (Nfa.State.link symbol target)

/-- Two steps in a row: the second one starts from what the first one leaves, and is left out if
the first one fails. -/
theorem run_bind {α β : Type} (first : Assembly α) (second : α → Assembly β) (arena : Arena) :
    (first >>= second).run arena =
      match first.run arena with
      | (.ok value, grown) => (second value).run grown
      | (.error failure, grown) => (.error failure, grown) := by
  simp only [bind, ExceptT.bind, ExceptT.mk, ExceptT.run, StateT.bind, ExceptT.bindCont]
  cases first arena with
  | mk result grown => cases result <;> rfl

@[simp]
theorem run_addState (arena : Arena) :
    addState.run arena = (.ok (arena.size : Int), arena.push { id := arena.size }) :=
  rfl

theorem run_change {place : Nat} {arena : Arena} (hplace : place < arena.size)
    (update : Nfa.State → Nfa.State) :
    (change (place : Int) update).run arena = (.ok (), arena.modify place update) := by
  simp [change, ExceptT.run, ExceptT.mk, Place.ofNumber?_natCast hplace]

theorem run_link {source : Nat} {arena : Arena} (hsource : source < arena.size)
    (target : StateNumber) (symbol : String) :
    (link (source : Int) target symbol).run arena =
      (.ok (), arena.modify source (Nfa.State.link symbol target)) :=
  run_change hsource _

end Assembly

namespace Fragment

open Assembly

def ofSymbol (symbol : String) : Assembly Fragment := do
  let start ← addState
  let finish ← addState
  link start finish symbol
  return ⟨start, finish⟩

def concat (first second : Fragment) : Assembly Fragment := do
  link first.finish second.start epsilon
  return ⟨first.start, second.finish⟩

def ofRegex : Regex → Assembly Fragment
  | .char value => ofSymbol value
  | .concat left right => do
    let first ← ofRegex left
    let second ← ofRegex right
    concat first second
  | .alternation left right => do
    let start ← addState
    let finish ← addState
    let first ← ofRegex left
    let second ← ofRegex right
    link start first.start epsilon
    link start second.start epsilon
    link first.finish finish epsilon
    link second.finish finish epsilon
    return ⟨start, finish⟩
  | .star child => do
    let start ← addState
    let finish ← addState
    let inner ← ofRegex child
    link start inner.start epsilon
    link start finish epsilon
    link inner.finish inner.start epsilon
    link inner.finish finish epsilon
    return ⟨start, finish⟩
  | .unknown kind _ => throw (.unknownNode kind)

end Fragment

namespace Nfa

/-- Builds the fragment of a tree in the arena and lets its last state accept.  The automaton
consists of all states of the arena. -/
def assemble (regex : Regex) : Assembly Nfa := do
  let fragment ← Fragment.ofRegex regex
  Assembly.change fragment.finish State.accept
  return ⟨← get, fragment.start, fragment.finish⟩

/-- The automaton of a tree, in an arena of its own. -/
def ofRegex (regex : Regex) : Except Failure Nfa :=
  ((assemble regex).run #[]).1

end Nfa
end RegexAutomata
