import RegexAutomata.Text.Quoted

/-!
# Errors in written regular expressions

What can be wrong with a written regular expression, where it is wrong, and the words for it.
-/

namespace RegexAutomata

/-- A message about a text, with the index of the offending character where there is one. -/
structure Diagnostic where
  message : String
  position : Option Int
  deriving DecidableEq, Repr

/-- The message, followed by the position in parentheses where there is one. -/
def Diagnostic.text (diagnostic : Diagnostic) : String :=
  match diagnostic.position with
  | none => diagnostic.message
  | some position => diagnostic.message ++ " (位置 " ++ toString position ++ ")"

/-- What is wrong with a written regular expression. -/
inductive SyntaxFault where
  /-- A character that is neither a literal nor an operator nor a parenthesis. -/
  | foreignCharacter (character : String)
  /-- A right parenthesis that closes nothing. -/
  | unmatchedClose
  /-- A left parenthesis that nothing closes. -/
  | unmatchedOpen
  /-- An operator with too few operands. -/
  | missingOperand (operator : String)
  /-- No operand at all. -/
  | empty
  /-- Several trees that no operator joins. -/
  | irreducible
  deriving DecidableEq, Repr

def SyntaxFault.message : SyntaxFault → String
  | foreignCharacter character => "非法字符 " ++ Text.quoted character
  | unmatchedClose => "右括号没有匹配的左括号"
  | unmatchedOpen => "左括号没有匹配的右括号"
  | missingOperand operator => "'" ++ operator ++ "' 缺少操作数"
  | empty => "空的正则表达式"
  | irreducible => "表达式无法归约为一棵语法树"

structure SyntaxError where
  fault : SyntaxFault
  position : Int
  deriving DecidableEq, Repr

def SyntaxError.diagnostic (error : SyntaxError) : Diagnostic :=
  ⟨error.fault.message, some error.position⟩

end RegexAutomata
