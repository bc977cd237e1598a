import Std.Data.TreeMap

/-!
# Numberings

A numbering gives each new key the next number, from zero on.  It finds the key of a number and
the number of a key; the one is the inverse of the other.
-/

namespace RegexAutomata

/-- Keys by number, and numbers by key. -/
structure Numbering (κ : Type) [Ord κ] where
  keys : Array κ
  index : Std.TreeMap κ Nat
  inverse : ∀ (key : κ) (number : Nat), index[key]? = some number ↔ keys[number]? = some key

namespace Numbering

variable {κ : Type} [Ord κ]

def empty [Std.TransOrd κ] : Numbering κ :=
  ⟨#[], ∅, by simp⟩

def size (numbering : Numbering κ) : Nat :=
  numbering.keys.size

def key? (numbering : Numbering κ) (number : Nat) : Option κ :=
  numbering.keys[number]?

def number? (numbering : Numbering κ) (key : κ) : Option Nat :=
  numbering.index[key]?

@[simp]
theorem number?_eq_some_iff {numbering : Numbering κ} {key : κ} {number : Nat} :
    numbering.number? key = some number ↔ numbering.key? number = some key :=
  numbering.inverse key number

theorem number?_empty [Std.TransOrd κ] {key : κ} : (empty : Numbering κ).number? key = none := by
  simp [number?, empty]

variable [Std.TransOrd κ] [Std.LawfulEqOrd κ]

/-- Gives the next number to a key that has none. -/
def push (numbering : Numbering κ) (key : κ) (hnew : numbering.number? key = none) :
    Numbering κ where
  keys := numbering.keys.push key
  index := numbering.index.insert key numbering.keys.size
  inverse := by
    intro other number
    have hinverse := numbering.inverse other number
    have hbound : ∀ found, numbering.keys[number]? = some found →
        number ≠ numbering.keys.size := by
      intro found hfound hequal
      subst hequal
      simp at hfound
    have hcompare : compare key other = .eq ↔ key = other := Std.LawfulEqOrd.compare_eq_iff_eq
    rw [Std.TreeMap.getElem?_insert, Array.getElem?_push]
    by_cases hkey : key = other
    · subst hkey
      have habsent : numbering.keys[number]? ≠ some key := by
        intro hfound
        rw [← hinverse] at hfound
        simp [number?, hfound] at hnew
      rw [if_pos (hcompare.2 rfl)]
      by_cases hnumber : number = numbering.keys.size
      · simp [hnumber]
      · simp [hnumber, habsent, Ne.symm hnumber]
    · rw [if_neg (mt hcompare.1 hkey)]
      by_cases hnumber : number = numbering.keys.size
      · have hnone : numbering.index[other]? ≠ some number := fun hfound =>
          hbound other (hinverse.1 hfound) hnumber
        simp only [if_pos hnumber, Option.some.injEq, hkey, iff_false]
        exact hnone
      · rw [if_neg hnumber]
        exact hinverse

@[simp]
theorem keys_push {numbering : Numbering κ} {key : κ} {hnew : numbering.number? key = none} :
    (numbering.push key hnew).keys = numbering.keys.push key := rfl

end Numbering
end RegexAutomata
