import RegexAutomata.Collection.Ascending
import RegexAutomata.Text.Quoted

/-!
# Regular expressions as trees

A tree is built from characters by concatenation, alternation and Kleene star.  The value of a
character is any text: nothing here asks for a single code point.  Trees that come from outside
may also hold nodes of a kind that no construction knows; each of these carries a mark, so that
two of them are equal only if they are the same node.
-/

namespace RegexAutomata

inductive Regex where
  /-- The one-symbol word of this value. -/
  | char (value : String)
  /-- A word of the left expression followed by a word of the right one. -/
  | concat (left right : Regex)
  /-- A word of either expression. -/
  | alternation (left right : Regex)
  /-- Any number of words of the inner expression, one after the other. -/
  | star (inner : Regex)
  /-- A node of a kind without meaning, told apart from others of its kind by the mark.  A kind is a
  text, so that there is no value for a node without a kind. -/
  | unknown (kind : String) (mark : Nat)
  deriving DecidableEq, Repr

namespace Regex

def values : Regex → List String
  | char value => [value]
  | concat left right => left.values ++ right.values
  | alternation left right => left.values ++ right.values
  | star inner => inner.values
  | unknown _ _ => []

def alphabet (regex : Regex) : List String :=
  Ascending.ofList regex.values

/-- The tree as nested constructor calls. -/
def display : Regex → String
  | char value => "Char(" ++ Text.quoted value ++ ")"
  | concat left right => "Concat(" ++ left.display ++ ", " ++ right.display ++ ")"
  | alternation left right => "Alternation(" ++ left.display ++ ", " ++ right.display ++ ")"
  | star inner => "KleeneStar(" ++ inner.display ++ ")"
  | unknown kind _ => "Unknown(" ++ Text.quoted kind ++ ")"

@[simp]
theorem mem_alphabet {symbol : String} {regex : Regex} :
    symbol ∈ regex.alphabet ↔ symbol ∈ regex.values :=
  Ascending.mem_ofList

end Regex
end RegexAutomata
