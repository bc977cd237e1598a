import RegexAutomata.Collection.Ascending
import RegexAutomata.Collection.Table
import RegexAutomata.Failure
import RegexAutomata.Regex.Basic

/-!
# Regular expressions with numbered characters

A marked expression numbers its characters from left to right, starting at one.  Its words are
then rows of positions, and four questions about them have answers by recursion on the tree: is
the empty word among them, which positions come first, which come last, and which may follow
which.  Annotating a tree writes these answers down instead of asking again.
-/

namespace RegexAutomata

/-- The number of a character.  In a tree numbers count up from one; a table of positions that is
given by hand may use any. -/
abbrev Position := Int

/-- A regular expression whose characters carry positions. -/
inductive MarkedRegex where
  | leaf (value : String) (position : Position)
  | concat (left right : MarkedRegex)
  | alternation (left right : MarkedRegex)
  | star (inner : MarkedRegex)
  deriving DecidableEq, Repr

namespace MarkedRegex

def leaves : MarkedRegex → Table Position String
  | leaf value position => [(position, value)]
  | concat left right => left.leaves ++ right.leaves
  | alternation left right => left.leaves ++ right.leaves
  | star inner => inner.leaves

/-- The empty word belongs to the expression. -/
def nullable : MarkedRegex → Bool
  | leaf _ _ => false
  | concat left right => left.nullable && right.nullable
  | alternation left right => left.nullable || right.nullable
  | star _ => true

/-- The positions that some word starts with. -/
def first : MarkedRegex → List Position
  | leaf _ position => [position]
  | concat left right =>
    if left.nullable then Ascending.union left.first right.first else left.first
  | alternation left right => Ascending.union left.first right.first
  | star inner => inner.first

/-- The positions that some word ends with. -/
def last : MarkedRegex → List Position
  | leaf _ position => [position]
  | concat left right =>
    if right.nullable then Ascending.union left.last right.last else right.last
  | alternation left right => Ascending.union left.last right.last
  | star inner => inner.last

/-- Lets every position of one set be followed by every position of another. -/
def linked (before after : List Position) (follow : Table Position (List Position)) :
    Table Position (List Position) :=
  follow.map fun entry =>
    (entry.1, if entry.1 ∈ before then Ascending.union after entry.2 else entry.2)

/-- The positions that may follow each position in some word. -/
def follow : MarkedRegex → Table Position (List Position)
  | leaf _ position => [(position, [])]
  | concat left right => linked left.last right.first (left.follow ++ right.follow)
  | alternation left right => left.follow ++ right.follow
  | star inner => linked inner.last inner.first inner.follow

def unmarked : MarkedRegex → Regex
  | leaf value _ => .char value
  | concat left right => .concat left.unmarked right.unmarked
  | alternation left right => .alternation left.unmarked right.unmarked
  | star inner => .star inner.unmarked

end MarkedRegex

namespace Regex

/-- Numbers the characters of a tree after those that are numbered already, and counts on. -/
def markFrom (used : Position) : Regex → Except Failure (MarkedRegex × Position)
  | char value => .ok (.leaf value (used + 1), used + 1)
  | concat left right => do
    let (first, usedLeft) ← markFrom used left
    let (second, usedRight) ← markFrom usedLeft right
    return (.concat first second, usedRight)
  | alternation left right => do
    let (first, usedLeft) ← markFrom used left
    let (second, usedRight) ← markFrom usedLeft right
    return (.alternation first second, usedRight)
  | star inner => do
    let (marked, usedInner) ← markFrom used inner
    return (.star marked, usedInner)
  | unknown kind _ => .error (.unknownNode kind)

def endMarker : String := "#"

/-- The expression with the end marker after it, as a marked expression. -/
def marked (regex : Regex) : Except Failure MarkedRegex := do
  return (← markFrom 0 (concat regex (char endMarker))).1

end Regex
end RegexAutomata
