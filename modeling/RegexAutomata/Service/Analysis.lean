import RegexAutomata.Dfa.Compare
import RegexAutomata.Graph.Drawing
import RegexAutomata.Json.Report
import RegexAutomata.Regex.PostOrder

/-!
# Everything that is made of one regular expression

The tree, the automata by both constructions, and the log of the direct one, together with the
reports that are drawn from them.
-/

namespace RegexAutomata

/-- What holds while something is analysed: how large things may get, and whether assembling
nondeterministic automata is out of order. -/
structure Conditions where
  maxLength : Option Int := none
  maxStates : Option Int := none
  outage : Bool := false
  deriving DecidableEq, Repr

structure Analysis where
  regex : String
  tree : Regex
  nfa : Nfa
  dfa : Dfa
  annotated : Annotated
  directDfa : Dfa
  trace : List TraceStep
  deriving DecidableEq, Repr

namespace Analysis

/-- Assembles a nondeterministic automaton, unless that is out of order. -/
def assemble (conditions : Conditions) (tree : Regex) : Except Failure Nfa :=
  if conditions.outage then .error .outage else Nfa.ofRegex tree

/-- Reads a regular expression and builds everything, within the limit on the states of each
deterministic automaton. -/
def build (conditions : Conditions) (regex : String) : Except Failure Analysis := do
  let tree ← (Regex.parse regex).mapError Failure.malformed
  let nfa ← assemble conditions tree
  let dfa ← Dfa.ofNfa nfa conditions.maxStates
  let annotated ← tree.annotate
  let (directDfa, trace) ← annotated.table.direct conditions.maxStates
  return { regex, tree, nfa, dfa, annotated, directDfa, trace }

def table (analysis : Analysis) : FollowTable :=
  analysis.annotated.table

/-- Both deterministic automata accept the same texts. -/
def equivalent (analysis : Analysis) : Except Failure Bool :=
  analysis.dfa.isEquivalent analysis.directDfa

def subsetReport (analysis : Analysis) : Json :=
  .object [("nfa", analysis.nfa.toJson), ("dfa", analysis.dfa.toJson),
    ("table", .array (analysis.dfa.conversionTable.map Dfa.Row.toJson)),
    ("NFA_dot_str", .string analysis.nfa.digraph.source),
    ("DFA_dot_str", .string (analysis.dfa.digraph "DFA").source)]

def directHeading : String := "DirectDFA"

def directReport (analysis : Analysis) : Except Failure Json := do
  let entries ← analysis.table.entries
  return .object [("annotated_ast", analysis.annotated.root.toJson),
    ("position_table", .array (entries.map PositionEntry.toJson)),
    ("dfa", analysis.directDfa.toJson), ("trace", TraceStep.toJsonAll analysis.trace),
    ("AST_dot_str", .string analysis.annotated.root.digraph.source),
    ("DFA_dot_str", .string (analysis.directDfa.digraph directHeading).source)]

def report (analysis : Analysis) : Except Failure Json := do
  let direct ← analysis.directReport
  let equivalent ← analysis.equivalent
  return .object [("regex", .string analysis.regex), ("ast", analysis.tree.toJson),
    ("alphabet", .strings analysis.tree.alphabet), ("subset", analysis.subsetReport),
    ("direct", direct), ("equivalent", .bool equivalent)]

end Analysis

def Regex.report (text : String) (tree : Regex) : Except Failure Json := do
  return .object [("regex", .string text), ("ast", tree.toJson),
    ("alphabet", .strings tree.alphabet), ("AST_dot_str", .string (← tree.digraph).source)]

end RegexAutomata
