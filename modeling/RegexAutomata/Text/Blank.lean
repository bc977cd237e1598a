/-!
# Blank characters

Two classes of blanks.  White space is the property of that name in Unicode; a separator is white
space or one of the four information separators of ASCII.
-/

namespace RegexAutomata.Text

def isWhiteSpace (character : Char) : Bool :=
  let code := character.toNat
  (0x9 ≤ code && code ≤ 0xd) || code == 0x20 || code == 0x85 || code == 0xa0 || code == 0x1680 ||
    (0x2000 ≤ code && code ≤ 0x200a) || code == 0x2028 || code == 0x2029 || code == 0x202f ||
    code == 0x205f || code == 0x3000

/-- White space and the information separators of ASCII. -/
def isSeparator (character : Char) : Bool :=
  isWhiteSpace character || (0x1c ≤ character.toNat && character.toNat ≤ 0x1f)

/-- What is left without the leading and the trailing characters of a class. -/
def trimmed (blank : Char → Bool) (characters : List Char) : List Char :=
  ((characters.dropWhile blank).reverse.dropWhile blank).reverse

end RegexAutomata.Text
