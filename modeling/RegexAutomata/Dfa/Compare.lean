import RegexAutomata.Collection.Ascending
import RegexAutomata.Dfa.Basic

/-!
# Comparing deterministic automata

Two questions about two automata: do their reachable parts differ in the numbering of the states
only, and do they accept the same texts?  Both are answered by walking the two automata side by
side from their starts.
-/

namespace RegexAutomata.Dfa

def State.sameSymbols (left right : State) : Bool :=
  left.transitions.all (fun edge => (Table.value? edge.1 right.transitions).isSome) &&
    right.transitions.all (fun edge => (Table.value? edge.1 left.transitions).isSome)

/-- Pairs up the targets of the left state's transitions with those of the right state's.  A pair
of which neither half has a partner yet is added; any other pair must be known.  The result holds
all pairs and the added ones, in order, or nothing if two targets do not fit. -/
def matchTargets (right : State) :
    Table String Nat → List (Nat × Nat) → Option (List (Nat × Nat) × List (Nat × Nat))
  | [], pairs => some (pairs, [])
  | (symbol, mine) :: rest, pairs => do
    let theirs ← Table.value? symbol right.transitions
    if pairs.any fun pair => pair.1 = mine ∨ pair.2 = theirs then
      if (mine, theirs) ∈ pairs then matchTargets right rest pairs else none
    else
      let (known, added) ← matchTargets right rest (pairs ++ [(mine, theirs)])
      return (known, (mine, theirs) :: added)

/-- Checks the pending pairs and all that they lead to.  Each left state is in one pair at most,
so one step more than there are states on the left is enough. -/
def matchFrom (left right : Dfa) :
    Nat → List (Nat × Nat) → List (Nat × Nat) → Except Failure Bool
  | 0, _, _ => .ok true
  | _ + 1, [], _ => .ok true
  | fuel + 1, (mine, theirs) :: pending, pairs => do
    let first ← left.state? mine
    let second ← right.state? theirs
    if first.accepting != second.accepting || !first.sameSymbols second then return false
    match matchTargets second first.transitions pairs with
    | none => return false
    | some (known, added) => matchFrom left right fuel (pending ++ added) known

/-- The reachable parts differ in the numbering of the states only. -/
def isIsomorphic (left right : Dfa) : Except Failure Bool :=
  match left.start, right.start with
  | some mine, some theirs =>
    matchFrom left right (left.states.size + 1) [(mine, theirs)] [(mine, theirs)]
  | none, none => .ok true
  | _, _ => .ok false

/-- Where a transition leads, or nowhere from the implicit rejecting state. -/
def nextOrReject (dfa : Dfa) (state : Option Nat) (symbol : String) :
    Except Failure (Option Nat) :=
  match state with
  | none => .ok none
  | some index => dfa.next index symbol

/-- Acceptance, where the implicit rejecting state never accepts. -/
def acceptsAt (dfa : Dfa) (state : Option Nat) : Except Failure Bool :=
  match state with
  | none => .ok false
  | some index => do return (← dfa.state? index).accepting

/-- A state of each of two automata; nothing stands for the implicit rejecting state. -/
abbrev StatePair := Option Nat × Option Nat

/-- The pairs that two automata reach from a pair by one symbol and that are not seen yet, in the
order of the symbols.  A pair of two rejecting states is left out. -/
def freshPairs (left right : Dfa) (pair : StatePair) :
    List String → List StatePair → Except Failure (List StatePair)
  | [], _ => .ok []
  | symbol :: symbols, seen => do
    let found := (← left.nextOrReject pair.1 symbol, ← right.nextOrReject pair.2 symbol)
    if found = (none, none) ∨ found ∈ seen then freshPairs left right pair symbols seen
    else
      let others ← freshPairs left right pair symbols (found :: seen)
      return found :: others

/-- Looks for a pair that tells the automata apart among the pending pairs and all that they lead
to.  A pair whose states exist is looked at once, so one step more than there are such pairs is
enough. -/
def agreeFrom (left right : Dfa) (symbols : List String) :
    Nat → List StatePair → List StatePair → Except Failure Bool
  | 0, _, _ => .ok true
  | _ + 1, [], _ => .ok true
  | fuel + 1, pair :: pending, seen => do
    let mine ← left.acceptsAt pair.1
    let theirs ← right.acceptsAt pair.2
    if mine != theirs then return false
    let fresh ← freshPairs left right pair symbols seen
    agreeFrom left right symbols fuel (pending ++ fresh) (fresh ++ seen)

/-- Both automata accept the same texts over their alphabets. -/
def isEquivalent (left right : Dfa) : Except Failure Bool :=
  let symbols := Ascending.ofList (left.alphabet ++ right.alphabet)
  let start := (left.start, right.start)
  let fuel := (left.states.size + 1) * (right.states.size + 1) + 1
  agreeFrom left right symbols fuel [start] [start]

end RegexAutomata.Dfa
