import RegexAutomata.Position.MarkedRegex

/-!
# Tables of positions

What the direct construction needs to know: the positions that come first, the symbol at each
position, and the positions that may follow it.  The highest position, which equals their number,
is that of the end marker.
-/

namespace RegexAutomata

/-- First positions, symbols and followers. -/
structure FollowTable where
  first : List Position
  symbols : Table Position String
  follow : Table Position (List Position)
  deriving DecidableEq, Repr

structure PositionEntry where
  position : Position
  symbol : String
  followers : List Position
  deriving DecidableEq, Repr

namespace FollowTable

def ofMarked (marked : MarkedRegex) : FollowTable :=
  ⟨marked.first, marked.leaves, marked.follow⟩

/-- The table given by entries that come in one after the other. -/
def ofEntries (first : List Position) (symbols : List (Position × String))
    (follow : List (Position × List Position)) : FollowTable :=
  { first := Ascending.ofList first
    symbols := Table.ofEntries symbols
    follow := Table.ofEntries (follow.map fun entry => (entry.1, Ascending.ofList entry.2)) }

def endPosition (table : FollowTable) : Position :=
  table.symbols.length

/-- The symbols at all positions but the last, in ascending order. -/
def alphabet (table : FollowTable) : List String :=
  Ascending.ofList
    ((table.symbols.filter fun entry => entry.1 ≠ table.endPosition).map Prod.snd)

def symbolAt (table : FollowTable) (position : Position) : Except Failure String :=
  match Table.value? position table.symbols with
  | some symbol => .ok symbol
  | none => .error (.noSuchPosition position)

def followersOf (table : FollowTable) (position : Position) :
    Except Failure (List Position) :=
  match Table.value? position table.follow with
  | some followers => .ok followers
  | none => .error (.noSuchPosition position)

def entries (table : FollowTable) : Except Failure (List PositionEntry) :=
  (Ascending.ofList (table.symbols.map Prod.fst)).mapM fun position => do
    return ⟨position, ← table.symbolAt position, ← table.followersOf position⟩

/-- The positions of a set that carry a given symbol. -/
def contributing (table : FollowTable) (key : List Position) (symbol : String) :
    Except Failure (List Position) :=
  key.filterM fun position => do return (← table.symbolAt position) == symbol

/-- The positions that may follow some position of a set. -/
def followersOfAll (table : FollowTable) (positions : List Position) :
    Except Failure (List Position) := do
  return Ascending.unions (← positions.mapM table.followersOf)

/-- The set reached from a set by one symbol, unless it is empty. -/
def step (table : FollowTable) (key : List Position) (symbol : String) :
    Except Failure (Option (List Position)) := do
  let found ← table.followersOfAll (← table.contributing key symbol)
  return if found.isEmpty then none else some found

end FollowTable
end RegexAutomata
