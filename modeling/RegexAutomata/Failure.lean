import RegexAutomata.Regex.SyntaxError

/-!
# Reasons why a construction stops

Every way in which building, walking or drawing an automaton can fail, and the words for it.
-/

namespace RegexAutomata

/-- Why a construction has no result. -/
inductive Failure where
  /-- The written regular expression is wrong. -/
  | malformed (error : SyntaxError)
  /-- A tree holds a node of a kind that has no automaton. -/
  | unknownNode (kind : String)
  /-- A deterministic automaton needs more states than the limit allows. -/
  | tooManyStates (limit : Int)
  /-- A state number is used that no state has. -/
  | noSuchState
  /-- A position is used that the table does not list. -/
  | noSuchPosition (position : Int)
  /-- A tree holds a node of a kind that has no picture. -/
  | noPicture (kind : String)
  /-- The construction is out of order. -/
  | outage
  deriving DecidableEq, Repr

def Failure.message : Failure → String
  | malformed error => error.diagnostic.text
  | unknownNode kind => "未知的语法树节点类型: " ++ Text.quoted kind
  | tooManyStates limit => "DFA状态数超过上限 " ++ toString limit
  | noSuchState => "list index out of range"
  | noSuchPosition position => toString position
  | noPicture kind => Text.quoted kind
  | outage => "服务异常"

end RegexAutomata
