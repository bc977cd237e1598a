/-!
# Places in a row

The places of a row are numbered from zero on.  A negative number names a place too: it counts
from the end of the row, the last place being minus one.
-/

namespace RegexAutomata.Place

/-- The place that a number names in a row of a given length, if it names one. -/
def ofNumber? (length : Nat) (number : Int) : Option Nat :=
  if 0 ≤ number then
    if number < length then some number.toNat else none
  else if 0 ≤ number + length then some (number + length).toNat
  else none

/-- From zero on, a number that is less than the length names the place of that number. -/
theorem ofNumber?_natCast {length number : Nat} (hnumber : number < length) :
    ofNumber? length (number : Int) = some number := by
  simp [ofNumber?, hnumber]

theorem lt_of_ofNumber?_eq_some {length place : Nat} {number : Int}
    (hplace : ofNumber? length number = some place) : place < length := by
  unfold ofNumber? at hplace
  grind

/-- A number names a place exactly if it lies within the length of the row, counted from either
end. -/
theorem isSome_ofNumber?_iff {length : Nat} {number : Int} :
    (ofNumber? length number).isSome ↔ -(length : Int) ≤ number ∧ number < length := by
  unfold ofNumber?
  grind

end RegexAutomata.Place
