/-!
# Graph sources in the DOT language

A graph is a comment, one attribute for the whole and a row of node and edge statements.  Names
and attribute values stand as they are if DOT reads them as one word, and in double quotes
otherwise.
-/

namespace RegexAutomata
namespace Dot

def withoutLineFeed (characters : List Char) : List Char :=
  if characters.getLast? = some '\n' then characters.dropLast else characters

/-- A letter or low line, then letters, low lines and digits, all of them ASCII. -/
def isIdentifier : List Char → Bool
  | [] => false
  | first :: rest =>
    (first.isAlpha || first == '_') && rest.all fun other => other.isAlphanum || other == '_'

/-- Digits with at most one point among, before or after them. -/
def isUnsigned (characters : List Char) : Bool :=
  let whole := characters.takeWhile Char.isDigit
  match characters.dropWhile Char.isDigit with
  | [] => !whole.isEmpty
  | '.' :: fraction => fraction.all Char.isDigit && (!whole.isEmpty || !fraction.isEmpty)
  | _ => false

/-- An unsigned numeral, or one after a minus sign. -/
def isNumeral : List Char → Bool
  | '-' :: rest => isUnsigned rest
  | characters => isUnsigned characters

/-- The words that mean something else to DOT. -/
def keywords : List String :=
  ["node", "edge", "graph", "digraph", "subgraph", "strict"]

/-- DOT reads the text as one word. -/
def isWord (text : String) : Bool :=
  let body := withoutLineFeed text.toList
  (isIdentifier body || isNumeral body) && !keywords.contains text.toLower

/-- The text is marked as HTML by angle brackets. -/
def isHtml (text : String) : Bool :=
  text.toList.head? == some '<' && (withoutLineFeed text.toList).getLast? == some '>'

/-- Puts a backslash before every double quote that has none to itself.  Whether the character is
escaped already shows from the backslashes before it, which pair off. -/
def escapeQuotes (escaped : Bool) : List Char → List Char
  | [] => []
  | '"' :: rest =>
    if escaped then '"' :: escapeQuotes false rest else '\\' :: '"' :: escapeQuotes false rest
  | '\\' :: rest => '\\' :: escapeQuotes (!escaped) rest
  | character :: rest => character :: escapeQuotes false rest

/-- A name or value as it stands in a source. -/
def quote (text : String) : String :=
  if isHtml text || isWord text then text
  else "\"" ++ String.ofList (escapeQuotes false text.toList) ++ "\""

abbrev Attributes := List (String × String)

inductive Statement where
  | node (name : String) (attributes : Attributes)
  | edge (tail head : String) (attributes : Attributes)
  deriving DecidableEq, Repr

/-- Attributes in brackets, with a blank in front; nothing if there are none. -/
def sourceOfAttributes (attributes : Attributes) : String :=
  if attributes.isEmpty then ""
  else
    let items := attributes.map fun item => item.1 ++ "=" ++ quote item.2
    " [" ++ " ".intercalate items ++ "]"

def Statement.source : Statement → String
  | node name attributes => "\t" ++ quote name ++ sourceOfAttributes attributes ++ "\n"
  | edge tail head attributes =>
    "\t" ++ quote tail ++ " -> " ++ quote head ++ sourceOfAttributes attributes ++ "\n"

end Dot

/-- A directed graph in the DOT language. -/
structure Digraph where
  comment : String
  attributes : Dot.Attributes
  statements : List Dot.Statement
  deriving DecidableEq, Repr

/-- The comment, if there is one, and the graph with its statements. -/
def Digraph.source (graph : Digraph) : String :=
  let heading := if graph.comment.isEmpty then "" else "// " ++ graph.comment ++ "\n"
  heading ++ "digraph \x7b\n" ++ "\tgraph" ++ Dot.sourceOfAttributes graph.attributes ++ "\n" ++
    String.join (graph.statements.map Dot.Statement.source) ++ "\x7d\n"

end RegexAutomata
