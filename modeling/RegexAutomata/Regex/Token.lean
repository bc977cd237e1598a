import RegexAutomata.Regex.SyntaxError

/-!
# Tokens

A written regular expression is a row of tokens: literals (ASCII letters and digits), the three
operators and parentheses.  Concatenation may be left out in writing; `joined` puts the missing
operator in.
-/

namespace RegexAutomata

inductive Operator where
  | alternation
  | concat
  | star
  deriving DecidableEq, Repr

/-- How tightly an operator binds. -/
def Operator.precedence : Operator → Nat
  | alternation => 1
  | concat => 2
  | star => 3

/-- What a token is to the order of operations. -/
inductive TokenRole where
  | opening
  | closing
  | operator (operator : Operator)
  | operand
  deriving DecidableEq, Repr

structure Token where
  /-- The piece as it is written. -/
  text : String
  /-- Its index in the whole. -/
  position : Int
  /-- Put in for a concatenation that is not written. -/
  implicit : Bool := false
  deriving DecidableEq, Repr

/-- A literal is a single ASCII letter or digit. -/
def isLiteral (text : String) : Bool :=
  match text.toList with
  | [character] => character.isAlphanum
  | _ => false

namespace Token

def concatSign : String := "."

def isLiteral (token : Token) : Bool :=
  RegexAutomata.isLiteral token.text

/-- Every text that is neither an operator nor a parenthesis is an operand. -/
def role (token : Token) : TokenRole :=
  if token.text = "(" then .opening
  else if token.text = ")" then .closing
  else if token.text = "*" then .operator .star
  else if token.text = concatSign then .operator .concat
  else if token.text = "|" then .operator .alternation
  else .operand

/-- A character that may stand in a written regular expression. -/
def isAdmitted (character : Char) : Bool :=
  character.isAlphanum || character == '(' || character == ')' || character == '|' ||
    character == '*' || character == '.'

/-- One token for each character, counted from a given index; the first character that may not
stand there is an error. -/
def scanFrom (position : Nat) : List Char → Except SyntaxError (List Token)
  | [] => .ok []
  | character :: rest =>
    if isAdmitted character then do
      let tokens ← scanFrom (position + 1) rest
      return { text := character.toString, position } :: tokens
    else .error ⟨.foreignCharacter character.toString, position⟩

def scan (text : String) : Except SyntaxError (List Token) :=
  scanFrom 0 text.toList

/-- An operand may end with this token. -/
def endsOperand (token : Token) : Bool :=
  token.isLiteral || token.text == ")" || token.text == "*"

def startsOperand (token : Token) : Bool :=
  token.isLiteral || token.text == "("

/-- Puts a concatenation between neighbours of which the left may end an operand and the right
may start one.  It takes the place of the right neighbour. -/
def joined : List Token → List Token
  | [] => []
  | [token] => [token]
  | token :: next :: rest =>
    if token.endsOperand && next.startsOperand then
      token :: { text := concatSign, position := next.position, implicit := true } ::
        joined (next :: rest)
    else token :: joined (next :: rest)

def display (token : Token) : String :=
  "Token(" ++ Text.quoted token.text ++ ", " ++ toString token.position ++ ")"

def displayAll (tokens : List Token) : String :=
  "[" ++ ", ".intercalate (tokens.map display) ++ "]"

end Token
end RegexAutomata
