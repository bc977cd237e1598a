import RegexAutomata.Text.Blank
import RegexAutomata.Text.LetterCase

/-!
# Headers

The headers of a request, in order.  Most are looked up without regard to case and to whether a
name is written with hyphens or low lines, and headers of one name then count as one.
-/

namespace RegexAutomata

abbrev Headers := List (String × String)

inductive HeaderError where
  /-- A value runs on over the end of its line. -/
  | lineBreak
  deriving DecidableEq, Repr

def HeaderError.message : HeaderError → String
  | lineBreak => "Header values must not contain newline characters."

namespace Headers

/-- Headers are sent one to a line, so that no value may hold the end of a line. -/
def checked (headers : Headers) : Except HeaderError Headers :=
  let isWithinLine (value : String) : Bool :=
    value.toList.all fun character => character ≠ '\n' && character ≠ '\r'
  if headers.all fun header => isWithinLine header.2 then .ok headers else .error .lineBreak

/-- The form in which header names are compared. -/
def normalized (name : String) : String :=
  (Text.upper name).map fun character => if character = '_' then '-' else character

/-- The value of a header; several headers of one name count as one, their values in a row. -/
def value? (headers : Headers) (name : String) : Option String :=
  let found := headers.filter fun header => normalized header.1 = normalized name
  if found.isEmpty then none else some (", ".intercalate (found.map Prod.snd))

/-- The value of the first header whose name is written like this, but for case. -/
def first? (headers : Headers) (name : String) : Option String :=
  (headers.find? fun header => header.1.toLower = name.toLower).map Prod.snd

/-- The items of a list in a header, in lower case and without blanks around them. -/
def items (headers : Headers) (name : String) : List String :=
  let pieces := (Text.lower ((headers.value? name).getD "")).toList.splitOn ','
  pieces.map fun piece => String.ofList (Text.trimmed Text.isSeparator piece)

def askForSocket (headers : Headers) : Bool :=
  (headers.items "Connection").contains "upgrade" &&
    (headers.value? "Upgrade").map Text.lower == some "websocket"

end Headers
end RegexAutomata
