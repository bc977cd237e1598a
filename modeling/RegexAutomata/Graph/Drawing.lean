import RegexAutomata.Dfa.Basic
import RegexAutomata.Graph.Digraph
import RegexAutomata.Nfa.Basic
import RegexAutomata.Position.AnnotatedRegex
import RegexAutomata.Regex.Token

/-!
# Pictures of trees and automata

The statements that draw a tree, annotated or not, and the two kinds of automaton.  Tree nodes are
named by their number in pre-order.  States are named by their number; an arrow from a node
without outline points to the start.
-/

namespace RegexAutomata

open Dot (Statement)

def displaySet (numbers : List Int) : String :=
  "\x7b" ++ ",".intercalate ((Ascending.sorted numbers).map toString) ++ "\x7d"

def treeDigraph (statements : List Statement) : Digraph :=
  ⟨"AST", [("ordering", "out")], statements⟩

/-- A tree node: characters are boxes, operators ellipses. -/
def treeNode (number : Nat) (label : String) (isCharacter : Bool) : Statement :=
  .node (toString number) [("label", label), ("shape", if isCharacter then "box" else "ellipse")]

def treeEdge (parent child : Nat) : Statement :=
  .edge (toString parent) (toString child) []

def Operator.label : Operator → String
  | concat => "•"
  | alternation => "|"
  | star => "*"

namespace Regex

/-- The statements for a tree whose root has a given number, and the next free number.  The arrow
to a child comes after everything below that child. -/
def statements (number : Nat) : Regex → Except Failure (List Statement × Nat)
  | char value => .ok ([treeNode number value true], number + 1)
  | concat left right => do
    let (first, second) ← statements (number + 1) left
    let (third, next) ← statements second right
    return (treeNode number Operator.concat.label false :: first ++ treeEdge number (number + 1) ::
      third ++ [treeEdge number second], next)
  | alternation left right => do
    let (first, second) ← statements (number + 1) left
    let (third, next) ← statements second right
    return (treeNode number Operator.alternation.label false :: first ++
      treeEdge number (number + 1) :: third ++ [treeEdge number second], next)
  | star inner => do
    let (below, next) ← statements (number + 1) inner
    return (treeNode number Operator.star.label false :: below ++ [treeEdge number (number + 1)],
      next)
  | unknown kind _ => .error (.noPicture kind)

def digraph (regex : Regex) : Except Failure Digraph := do
  return treeDigraph (← statements 0 regex).1

end Regex

namespace AnnotatedRegex

/-- A label with the notes on a node below it; `\n` separates the lines. -/
def label (head : String) (notes : NodeNotes) : String :=
  head ++ "\\nnullable=" ++ (if notes.nullable then "true" else "false") ++
    "\\nfirstpos=" ++ displaySet notes.first ++ "\\nlastpos=" ++ displaySet notes.last

def statements (number : Nat) : AnnotatedRegex → List Statement × Nat
  | leaf value position notes =>
    ([treeNode number (label (value ++ "\\n" ++ toString position) notes) true], number + 1)
  | concat left right notes =>
    let (first, second) := statements (number + 1) left
    let (third, next) := statements second right
    (treeNode number (label Operator.concat.label notes) false :: first ++
      treeEdge number (number + 1) :: third ++ [treeEdge number second], next)
  | alternation left right notes =>
    let (first, second) := statements (number + 1) left
    let (third, next) := statements second right
    (treeNode number (label Operator.alternation.label notes) false :: first ++
      treeEdge number (number + 1) :: third ++ [treeEdge number second], next)
  | star inner notes =>
    let (below, next) := statements (number + 1) inner
    (treeNode number (label Operator.star.label notes) false :: below ++
      [treeEdge number (number + 1)], next)

def digraph (tree : AnnotatedRegex) : Digraph :=
  treeDigraph (statements 0 tree).1

end AnnotatedRegex

/-- A state: red if it accepts or is the start, with a double outline if it accepts. -/
def stateNode (name label : String) (isStart accepting : Bool) : Statement :=
  .node name [("label", label), ("color", if accepting || isStart then "red" else "black"),
    ("shape", if accepting then "doublecircle" else "circle")]

/-- The arrow that points to the start. -/
def startStatements (start : Int) : List Statement :=
  [.node "start" [("label", ""), ("color", "white")],
    .edge "start" (toString start) [("label", "start")]]

def transitionEdge (source target : Int) (label : String) : Statement :=
  .edge (toString source) (toString target) [("label", label)]

namespace Nfa

/-- The arrows that leave a state: by symbol in order of entry, then by target. -/
def State.arrows (state : State) : List Statement :=
  state.edges.flatMap fun edge => edge.2.map fun target => transitionEdge state.id target edge.1

def digraph (nfa : Nfa) : Digraph :=
  let nodes := nfa.states.toList.map fun state =>
    stateNode (toString state.id) (toString state.id) ((state.id : Int) == nfa.start)
      state.accepting
  { comment := "NFA"
    attributes := [("rankdir", "LR")]
    statements := nodes ++ nfa.states.toList.flatMap State.arrows ++ startStatements nfa.start }

end Nfa

namespace Dfa

/-- The label of a state: its number, and below it the positions it stands for. -/
def State.label (state : State) : String :=
  match state.positions with
  | none => toString state.id
  | some positions => toString state.id ++ "\\n" ++ displaySet positions

/-- All transitions, by pairs of states in order of first appearance, with the symbols of each
pair. -/
def arrowTable (dfa : Dfa) : Table (Nat × Nat) (List String) :=
  let transitions := dfa.states.toList.flatMap fun state =>
    state.transitions.map fun transition => ((state.id, transition.2), transition.1)
  transitions.foldl
    (fun table transition =>
      Table.alter transition.1 (fun known => known.getD [] ++ [transition.2]) table)
    []

def statementsFrom (dfa : Dfa) (start : Nat) : List Statement :=
  let nodes := dfa.states.toList.map fun state =>
    stateNode (toString state.id) state.label (state.id == start) state.accepting
  let arrows := dfa.arrowTable.map fun entry =>
    transitionEdge entry.1.1 entry.1.2 (",".intercalate (Ascending.sorted entry.2))
  nodes ++ arrows ++ startStatements start

/-- The picture of a deterministic automaton under a given heading.  Transitions between the same
two states share an arrow. -/
def digraph (dfa : Dfa) (comment : String) : Digraph :=
  ⟨comment, [("rankdir", "LR")], dfa.start.elim [] dfa.statementsFrom⟩

end Dfa
end RegexAutomata
