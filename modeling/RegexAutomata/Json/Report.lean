import RegexAutomata.Dfa.Determinization
import RegexAutomata.Dfa.Direct
import RegexAutomata.Dfa.Run
import RegexAutomata.Json.Basic
import RegexAutomata.Nfa.Fragment

/-!
# Trees, automata and logs as JSON

The form in which each result is reported.
-/

namespace RegexAutomata

def Regex.toJson : Regex → Json
  | char value => .object [("type", .string "CHAR"), ("value", .string value)]
  | concat left right =>
    .object [("type", .string "CONCAT"), ("left", left.toJson), ("right", right.toJson)]
  | alternation left right =>
    .object [("type", .string "ALTERNATION"), ("left", left.toJson), ("right", right.toJson)]
  | star inner => .object [("type", .string "KLEENE_STAR"), ("child", inner.toJson)]
  | unknown kind _ => .object [("type", .string kind)]

/-- The members that all nodes of an annotated tree have. -/
def NodeNotes.members (notes : NodeNotes) (kind : String) : List (String × Json) :=
  [("type", .string kind), ("nullable", .bool notes.nullable),
    ("firstpos", .integers notes.first), ("lastpos", .integers notes.last)]

/-- A node of an annotated tree adds the notes on it. -/
def AnnotatedRegex.toJson : AnnotatedRegex → Json
  | leaf value position notes =>
    .object (notes.members "CHAR" ++ [("value", .string value), ("position", .integer position)])
  | concat left right notes =>
    .object (notes.members "CONCAT" ++ [("left", left.toJson), ("right", right.toJson)])
  | alternation left right notes =>
    .object (notes.members "ALTERNATION" ++ [("left", left.toJson), ("right", right.toJson)])
  | star inner notes => .object (notes.members "KLEENE_STAR" ++ [("child", inner.toJson)])

def Diagnostic.toJson (diagnostic : Diagnostic) : Json :=
  .object [("message", .string diagnostic.message),
    ("position", .optional (diagnostic.position.map .integer))]

def Nfa.State.toJson (state : Nfa.State) : Json :=
  .object [("id", .natural state.id), ("isAccepting", .bool state.accepting),
    ("transitions", .object (state.edges.map fun edge => (edge.1, .integers edge.2)))]

def Arena.toJson (arena : Arena) : Json :=
  .array (arena.toList.map Nfa.State.toJson)

def Nfa.toJson (nfa : Nfa) : Json :=
  .object [("start", .integer nfa.start), ("end", .integer nfa.finish),
    ("states", Arena.toJson nfa.states)]

/-- A state reports the set it stands for, if it has one. -/
def Dfa.State.toJson (state : Dfa.State) : Json :=
  .object ([("id", .natural state.id), ("isAccepting", .bool state.accepting),
      ("transitions", .object (state.transitions.map fun edge => (edge.1, .natural edge.2)))] ++
    (state.positions.map fun positions => ("positions", .integers positions)).toList ++
    (state.nfaStates.map fun nfaStates => ("nfa_states", .integers nfaStates)).toList)

def Dfa.toJson (dfa : Dfa) : Json :=
  .object [("states", .array (dfa.states.toList.map State.toJson)),
    ("alphabet", .strings dfa.alphabet), ("startState", .optional (dfa.start.map .natural)),
    ("acceptingStates", .naturals dfa.acceptingStates)]

namespace Dfa

def Cell.toJson (cell : Cell) : Json :=
  .object [("S", .natural cell.state), ("I", .integers cell.set)]

/-- A row is a cell with one further member for each symbol. -/
def Row.toJson (row : Row) : Json :=
  .object ([("S", .natural row.origin.state), ("I", .integers row.origin.set)] ++
    row.targets.map fun target => ("I" ++ target.1, .optional (target.2.map Cell.toJson)))

end Dfa

def PositionEntry.toJson (entry : PositionEntry) : Json :=
  .object [("position", .integer entry.position), ("symbol", .string entry.symbol),
    ("followpos", .integers entry.followers)]

/-- An entry of a log names its kind. -/
def TraceStep.toJson : TraceStep → Json
  | initial positions =>
    .object [("kind", .string "initial"), ("state", .natural 0),
      ("positions", .integers positions)]
  | state number positions =>
    .object [("kind", .string "state"), ("state", .natural number),
      ("positions", .integers positions)]
  | transition number symbol contributing result target fresh =>
    .object [("kind", .string "transition"), ("state", .natural number),
      ("symbol", .string symbol), ("contributing", .integers contributing),
      ("result", .integers result), ("target", .optional (target.map .natural)),
      ("isNew", .bool fresh)]
  | empty => .object [("kind", .string "empty"), ("message", .string emptyMessage)]

def TraceStep.toJsonAll (steps : List TraceStep) : Json :=
  .array (steps.map toJson)

/-- A run, column by column, with how it ends. -/
def Run.toJson (run : Run) : Json :=
  .object [("info_step", .naturals run.counts),
    ("info_state", .naturals (run.steps.map RunStep.state)),
    ("info_str", .strings (run.steps.map fun step => String.ofList step.remaining)),
    ("info_msg", .strings (run.steps.map RunStep.message)),
    ("info_res", .string run.verdict), ("accepted", .bool run.accepted)]

end RegexAutomata
