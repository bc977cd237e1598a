import RegexAutomata.Collection.Numbering
import RegexAutomata.Failure

/-!
# Numbering what a search discovers

A breadth-first search from a first key.  Keys are numbered in the order of their discovery, and
expanded in that order, symbol by symbol.  The result holds the numbering of the keys and, for
each expanded key, the edges that leave it.  A limit may be set on how many keys there can be.
-/

namespace RegexAutomata

structure Discovery where
  symbol : String
  /-- The number of the key that the edge leads to. -/
  target : Nat
  /-- The edge was the first to lead to that key. -/
  fresh : Bool
  deriving DecidableEq, Repr

/-- The keys that a search has numbered, and the edges of each expanded key in the order of the
symbols. -/
structure Exploration (κ : Type) [Ord κ] where
  found : Numbering κ
  rows : Array (List Discovery) := #[]

namespace Exploration

variable {κ : Type} [Ord κ] [Std.TransOrd κ] [Std.LawfulEqOrd κ]

/-- There is room for one more beside so many, or the limit is reached. -/
def room (limit : Option Int) (count : Nat) : Except Failure Unit :=
  match limit with
  | none => .ok ()
  | some limit => if limit ≤ count then .error (.tooManyStates limit) else .ok ()

/-- The number of a key, and whether it is new.  A new key takes the next number if there is
room. -/
def locate (limit : Option Int) (found : Numbering κ) (key : κ) :
    Except Failure (Nat × Bool × Numbering κ) :=
  match hknown : found.number? key with
  | some number => .ok (number, false, found)
  | none => do
    room limit found.size
    return (found.size, true, found.push key hknown)

/-- The edges that leave one key.  A symbol for which `step` has no key has no edge. -/
def expand (step : κ → String → Except Failure (Option κ)) (limit : Option Int) (key : κ) :
    List String → Numbering κ → Except Failure (List Discovery × Numbering κ)
  | [], found => .ok ([], found)
  | symbol :: symbols, found => do
    match ← step key symbol with
    | none => expand step limit key symbols found
    | some next =>
      let (target, fresh, extended) ← locate limit found next
      let (row, final) ← expand step limit key symbols extended
      return (⟨symbol, target, fresh⟩ :: row, final)

/-- Expands the keys that are not yet expanded, as long as there are any and fuel lasts. -/
def continueFrom (step : κ → String → Except Failure (Option κ)) (limit : Option Int)
    (symbols : List String) : Nat → Exploration κ → Except Failure (Exploration κ)
  | 0, exploration => .ok exploration
  | fuel + 1, exploration =>
    match exploration.found.key? exploration.rows.size with
    | none => .ok exploration
    | some key => do
      let (row, found) ← expand step limit key symbols exploration.found
      continueFrom step limit symbols fuel ⟨found, exploration.rows.push row⟩

/-- Searches from a first key.  The fuel has to exceed the number of keys that there are to
find. -/
def run (step : κ → String → Except Failure (Option κ)) (limit : Option Int)
    (symbols : List String) (fuel : Nat) (first : κ) : Except Failure (Exploration κ) := do
  let (_, _, found) ← locate limit .empty first
  continueFrom step limit symbols fuel { found }

omit [Std.TransOrd κ] [Std.LawfulEqOrd κ] in
/-- The keys by number, each with the edges that leave it; a key that is not expanded has none. -/
def entries (exploration : Exploration κ) : List (κ × List Discovery) :=
  exploration.found.keys.toList.mapIdx fun number key =>
    (key, exploration.rows[number]?.getD [])

end Exploration
end RegexAutomata
