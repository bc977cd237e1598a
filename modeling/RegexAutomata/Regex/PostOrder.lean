import RegexAutomata.Regex.Basic
import RegexAutomata.Regex.Token

/-!
# Operands before operators

In post-order every operator stands behind its operands, and parentheses are gone.  `postOrder`
brings a row of tokens into this order by holding operators back on a stack until their right
operand is complete; `Regex.ofPostOrder` builds the tree from it.
-/

namespace RegexAutomata
namespace Token

/-- A waiting token gives way to an operator that binds no more tightly. -/
def yieldsTo (operator : Operator) (waiting : Token) : Bool :=
  match waiting.role with
  | .operator other => operator.precedence ≤ other.precedence
  | _ => false

def isOpening (token : Token) : Bool :=
  token.role = .opening

/-- Releases all waiting operators, the last one first; none of them may be a parenthesis. -/
def release : List Token → Except SyntaxError (List Token)
  | [] => .ok []
  | token :: waiting =>
    if token.isOpening then .error ⟨.unmatchedOpen, token.position⟩
    else do
      let released ← release waiting
      return token :: released

/-- Brings tokens into post-order while others wait; the first of `waiting` came last. -/
def postOrderFrom (waiting : List Token) : List Token → Except SyntaxError (List Token)
  | [] => release waiting
  | token :: rest =>
    match token.role with
    | .opening => postOrderFrom (token :: waiting) rest
    | .closing =>
      match waiting.dropWhile fun other => !other.isOpening with
      | [] => .error ⟨.unmatchedClose, token.position⟩
      | _ :: below => do
        let ordered ← postOrderFrom below rest
        return waiting.takeWhile (fun other => !other.isOpening) ++ ordered
    | .operator operator => do
      let ordered ← postOrderFrom (token :: waiting.dropWhile (yieldsTo operator)) rest
      return waiting.takeWhile (yieldsTo operator) ++ ordered
    | .operand => do
      let ordered ← postOrderFrom waiting rest
      return token :: ordered

def postOrder (tokens : List Token) : Except SyntaxError (List Token) :=
  postOrderFrom [] tokens

end Token

namespace Regex

/-- Applies tokens in post-order to a stack of trees.  Parentheses count as operands here. -/
def reduce (stack : List Regex) : List Token → Except SyntaxError (List Regex)
  | [] => .ok stack
  | token :: rest =>
    match token.role, stack with
    | .operator .star, inner :: below => reduce (star inner :: below) rest
    | .operator .concat, right :: left :: below => reduce (concat left right :: below) rest
    | .operator .alternation, right :: left :: below =>
      reduce (alternation left right :: below) rest
    | .operator _, _ => .error ⟨.missingOperand token.text, token.position⟩
    | _, _ => reduce (char token.text :: stack) rest

/-- The tree of a row of tokens in post-order.  Errors that no single token causes are placed at
`finish`. -/
def ofPostOrder (tokens : List Token) (finish : Int) : Except SyntaxError Regex := do
  match ← reduce [] tokens with
  | [] => .error ⟨.empty, finish⟩
  | [regex] => .ok regex
  | _ => .error ⟨.irreducible, finish⟩

def parse (text : String) : Except SyntaxError Regex := do
  let tokens ← Token.scan text
  let ordered ← Token.postOrder (Token.joined tokens)
  ofPostOrder ordered text.length

end Regex
end RegexAutomata
