import Mathlib.Computability.Language
import Mathlib.Order.CompletePartialOrder
import RegexAutomata.Regex.Basic

/-!
# The language of a regular expression

A word is a row of symbols, each symbol being a text.  The constructions are judged by which words
they accept; this module says which words belong to a tree.
-/

namespace RegexAutomata

open Computability

namespace Regex

/-- Every node of the tree has a meaning. -/
def isKnown : Regex → Bool
  | char _ => true
  | concat left right => left.isKnown && right.isKnown
  | alternation left right => left.isKnown && right.isKnown
  | star inner => inner.isKnown
  | unknown _ _ => false

/-- The kinds of all nodes without a meaning, from left to right. -/
def unknownKinds : Regex → List String
  | char _ => []
  | concat left right => left.unknownKinds ++ right.unknownKinds
  | alternation left right => left.unknownKinds ++ right.unknownKinds
  | star inner => inner.unknownKinds
  | unknown kind _ => [kind]

theorem isKnown_iff {regex : Regex} : regex.isKnown ↔ regex.unknownKinds = [] := by
  induction regex with
  | char value => simp [isKnown, unknownKinds]
  | concat left right ihLeft ihRight => simp [isKnown, unknownKinds, ihLeft, ihRight]
  | alternation left right ihLeft ihRight => simp [isKnown, unknownKinds, ihLeft, ihRight]
  | star inner ih => simp [isKnown, unknownKinds, ih]
  | unknown kind mark => simp [isKnown, unknownKinds]

/-- The words that a tree stands for. -/
def language : Regex → Language String
  | char value => {[value]}
  | concat left right => left.language * right.language
  | alternation left right => left.language + right.language
  | star inner => inner.language∗
  | unknown _ _ => 0

end Regex

/-- The word that a text is: one symbol for each character. -/
def symbolsOf (text : String) : List String :=
  text.toList.map String.singleton

end RegexAutomata
