/-!
# Upper and lower case

The case of letters as far as it stays within ASCII.  Besides the letters of ASCII there are a few
further characters whose upper or lower case is made of such letters.  All other characters stay
as they are: whatever their case is, no word of ASCII letters comes of them.
-/

namespace RegexAutomata.Text

/-- The upper case of a character: one letter, or several for a ligature. -/
def upperCase : Char → List Char
  | 'ß' => ['S', 'S']
  | 'ı' => ['I']
  | 'ſ' => ['S']
  | 'ﬀ' => ['F', 'F']
  | 'ﬁ' => ['F', 'I']
  | 'ﬂ' => ['F', 'L']
  | 'ﬃ' => ['F', 'F', 'I']
  | 'ﬄ' => ['F', 'F', 'L']
  | 'ﬅ' => ['S', 'T']
  | 'ﬆ' => ['S', 'T']
  | character => [character.toUpper]

/-- The lower case of a character; the sign for kelvins is one for the letter. -/
def lowerCase (character : Char) : Char :=
  if character = '\u212a' then 'k' else character.toLower

def upper (text : String) : String :=
  String.ofList (text.toList.flatMap upperCase)

def lower (text : String) : String :=
  String.ofList (text.toList.map lowerCase)

end RegexAutomata.Text
