import RegexAutomata.Position.FollowTable
import RegexAutomata.Text.Quoted

/-!
# Logs of the direct construction

The log names the first set of positions, then for each state its set and, for each symbol at
some position of that set, which positions contribute, which positions follow them and where the
transition leads.
-/

namespace RegexAutomata

/-- An entry of the log. -/
inductive TraceStep where
  /-- The set of the first state. -/
  | initial (positions : List Position)
  /-- The set of the state whose transitions come next. -/
  | state (number : Nat) (positions : List Position)
  /-- A transition; it leads nowhere if no position follows, and is `fresh` if it leads to a state
  for the first time. -/
  | transition (number : Nat) (symbol : String) (contributing result : List Position)
      (target : Option Nat) (fresh : Bool)
  /-- There are no first positions. -/
  | empty
  deriving DecidableEq, Repr

namespace TraceStep

/-- The words for a table without first positions. -/
def emptyMessage : String := "firstpos(root) 为空，得到空自动机"

def displayNumbers (numbers : List Int) : String :=
  "[" ++ ", ".intercalate (numbers.map toString) ++ "]"

def displayFields (fields : List (String × String)) : String :=
  "\x7b" ++ ", ".intercalate (fields.map fun field => "'" ++ field.1 ++ "': " ++ field.2) ++ "\x7d"

def fields : TraceStep → List (String × String)
  | initial positions =>
    [("kind", "'initial'"), ("state", "0"), ("positions", displayNumbers positions)]
  | state number positions =>
    [("kind", "'state'"), ("state", toString number), ("positions", displayNumbers positions)]
  | transition number symbol contributing result target fresh =>
    [("kind", "'transition'"), ("state", toString number), ("symbol", Text.quoted symbol),
      ("contributing", displayNumbers contributing), ("result", displayNumbers result),
      ("target", target.elim "None" toString), ("isNew", if fresh then "True" else "False")]
  | empty => [("kind", "'empty'"), ("message", Text.quoted emptyMessage)]

def display (step : TraceStep) : String :=
  "TraceStep(" ++ displayFields step.fields ++ ")"

def displayAll (steps : List TraceStep) : String :=
  "[" ++ ", ".intercalate (steps.map display) ++ "]"

end TraceStep
end RegexAutomata
