/-!
# JSON values

The values that requests bring in and answers carry.  A number that is not written as a whole
number keeps its spelling.  An object may name a member twice; the later one counts.
-/

namespace RegexAutomata

/-- A JSON value. -/
inductive Json where
  | null
  | bool (value : Bool)
  | integer (value : Int)
  | decimal (spelling : String)
  | string (value : String)
  | array (items : List Json)
  | object (members : List (String × Json))
  deriving Repr, Inhabited

namespace Json

def natural (value : Nat) : Json :=
  integer value

def integers (values : List Int) : Json :=
  array (values.map integer)

def naturals (values : List Nat) : Json :=
  array (values.map natural)

def strings (values : List String) : Json :=
  array (values.map string)

def optional (value : Option Json) : Json :=
  value.getD null

def text? : Json → Option String
  | string value => some value
  | _ => none

/-- The members of an object; any other value counts as the empty object. -/
def members : Json → List (String × Json)
  | object members => members
  | _ => []

/-- A member of an object, unless it is missing or null. -/
def member? (value : Json) (name : String) : Option Json :=
  match value.members.reverse.find? fun entry => entry.1 = name with
  | some (_, null) => none
  | some (_, found) => some found
  | none => none

end Json
end RegexAutomata
