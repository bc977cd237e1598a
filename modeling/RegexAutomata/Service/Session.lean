import RegexAutomata.Service.Analysis

/-!
# Sessions

A session keeps the analysis of the last regular expression that was analysed with success, and
answers from it as long as the same expression is asked for.  Anything that fails leaves it as it
is.
-/

namespace RegexAutomata

/-- Why a session has no answer. -/
inductive Refusal where
  /-- The input is at fault. -/
  | rejected (diagnostic : Diagnostic)
  /-- The input is not at fault. -/
  | breakdown
  deriving DecidableEq, Repr

/-- Errors in the input, among them needing too many states, are told apart from breakdowns. -/
def Refusal.ofFailure (failure : Failure) : Refusal :=
  match failure with
  | .malformed error => .rejected error.diagnostic
  | .tooManyStates _ => .rejected ⟨failure.message, none⟩
  | _ => .breakdown

inductive Task where
  /-- The tree alone. -/
  | tree
  /-- The construction by sets of states. -/
  | subset
  /-- The direct construction. -/
  | direct
  /-- Everything. -/
  | all
  /-- The runs of both automata on a text, which may be missing because it is no text. -/
  | input (text : Option String)
  deriving DecidableEq, Repr

/-- The analysis of the last regular expression, if there is one. -/
structure Session where
  current : Option Analysis := none
  deriving DecidableEq, Repr

namespace Session

def fresh : Session := {}

def regex (session : Session) : Option String :=
  session.current.map Analysis.regex

/-- A regular expression has to be a text, and no longer than the limit. -/
def checked (conditions : Conditions) (regex : Option String) : Except Refusal String :=
  match regex, conditions.maxLength with
  | none, _ => .error (.rejected ⟨"正则表达式必须是字符串", none⟩)
  | some text, none => .ok text
  | some text, some limit =>
    if limit < text.length then
      .error (.rejected ⟨"正则表达式长度不能超过" ++ toString limit, some limit⟩)
    else .ok text

/-- The analysis of a regular expression, which becomes the current one. -/
def analyse (session : Session) (conditions : Conditions) (regex : Option String) :
    Except Refusal Analysis × Session :=
  match checked conditions regex with
  | .error refusal => (.error refusal, session)
  | .ok text =>
    match session.current.filter fun analysis => analysis.regex = text with
    | some analysis => (.ok analysis, session)
    | none =>
      match Analysis.build conditions text with
      | .ok analysis => (.ok analysis, ⟨some analysis⟩)
      | .error failure => (.error (.ofFailure failure), session)

/-- The report on a tree, for which nothing is built. -/
def treeReport (conditions : Conditions) (regex : Option String) : Except Refusal Json := do
  let text ← checked conditions regex
  let report := (Regex.parse text).mapError Failure.malformed >>= Regex.report text
  report.mapError .ofFailure

/-- The runs of both automata on a text. -/
def runReport (analysis : Analysis) (text : String) : Except Failure Json := do
  let subset ← analysis.dfa.simulate text
  let direct ← analysis.directDfa.simulate text
  return .object [("regex", .string analysis.regex), ("inpStr", .string text),
    ("subset", subset.toJson), ("direct", direct.toJson), ("accepted", .bool subset.accepted),
    ("consistent", .bool (subset.accepted == direct.accepted))]

/-- A report on the analysis of a regular expression, which becomes the current one. -/
def reportOn (session : Session) (conditions : Conditions) (regex : Option String)
    (report : Analysis → Except Failure Json) : Except Refusal Json × Session :=
  let (result, after) := session.analyse conditions regex
  (result >>= fun analysis => (report analysis).mapError .ofFailure, after)

def perform (session : Session) (conditions : Conditions) (regex : Option String) (task : Task) :
    Except Refusal Json × Session :=
  match task with
  | .tree => (treeReport conditions regex, session)
  | .subset => session.reportOn conditions regex fun analysis => .ok analysis.subsetReport
  | .direct => session.reportOn conditions regex Analysis.directReport
  | .all => session.reportOn conditions regex Analysis.report
  | .input none => (.error (.rejected ⟨"输入串必须是字符串", none⟩), session)
  | .input (some text) => session.reportOn conditions regex fun analysis => runReport analysis text

def currentReport (session : Session) : Option (Except Refusal Json) :=
  session.current.map fun analysis => analysis.report.mapError .ofFailure

end Session

/-- What can be asked of a session.  A regular expression that is no text is missing. -/
inductive Command where
  /-- Forget everything. -/
  | reset
  /-- Report on the current analysis. -/
  | current
  /-- Analyse a regular expression. -/
  | analyse (regex : Option String)
  /-- Carry out a task on a regular expression. -/
  | perform (regex : Option String) (task : Task)
  deriving DecidableEq, Repr

inductive Answer where
  /-- Nothing is to be said. -/
  | nothing
  /-- The analysis asked for. -/
  | analysis (analysis : Analysis)
  /-- The report asked for. -/
  | data (report : Json)
  /-- There is no answer. -/
  | refused (refusal : Refusal)

def Answer.ofResult : Except Refusal Json → Answer
  | .ok report => data report
  | .error refusal => refused refusal

def Session.obey (session : Session) (conditions : Conditions) : Command → Answer × Session
  | .reset => (.nothing, .fresh)
  | .current => (session.currentReport.elim .nothing .ofResult, session)
  | .analyse regex =>
    match session.analyse conditions regex with
    | (.ok analysis, after) => (.analysis analysis, after)
    | (.error refusal, after) => (.refused refusal, after)
  | .perform regex task =>
    let (result, after) := session.perform conditions regex task
    (.ofResult result, after)

end RegexAutomata
