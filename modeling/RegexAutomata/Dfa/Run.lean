import RegexAutomata.Dfa.Basic

/-!
# Step-by-step runs

A run records, for each character read, the state it was read in and what followed, and at the
end of the text whether the last state accepts.  It breaks off at the first missing transition.
-/

namespace RegexAutomata

inductive Outcome where
  /-- The character leads on to another state. -/
  | moved (character : Char) (target : Nat)
  /-- The character leads nowhere. -/
  | stuck (character : Char)
  /-- The text ends in an accepting state. -/
  | accepted
  /-- The text ends in a state that does not accept. -/
  | rejected
  deriving DecidableEq, Repr

structure RunStep where
  state : Nat
  /-- The text that is still to be read. -/
  remaining : List Char
  outcome : Outcome
  deriving DecidableEq, Repr

def RunStep.message (step : RunStep) : String :=
  match step.outcome with
  | .moved character target =>
    "move(" ++ toString step.state ++ "," ++ String.singleton character ++ ")=" ++ toString target
  | .stuck _ => "error"
  | .accepted => "acc: 分析成功！"
  | .rejected => "error"

/-- The steps of a run in order.  There are none if the automaton is empty. -/
structure Run where
  steps : List RunStep
  deriving DecidableEq, Repr

/-- The steps are counted from one. -/
def Run.counts (run : Run) : List Nat :=
  List.range' 1 run.steps.length

def Run.accepted (run : Run) : Bool :=
  run.steps.getLast?.any fun step => step.outcome = .accepted

/-- The words for how a run ends. -/
def Run.verdict (run : Run) : String :=
  match run.steps.getLast? with
  | none => "error：自动机为空"
  | some step =>
    match step.outcome with
    | .accepted => "Success!"
    | .rejected => "error：分析失败，状态" ++ toString step.state ++ "不是终态"
    | .stuck character | .moved character _ =>
      "error：分析失败，状态" ++ toString step.state ++ "没有经过'" ++ String.singleton character ++
        "'的转换"

namespace Dfa

def stepsFrom (dfa : Dfa) (index : Nat) : List Char → Except Failure (List RunStep)
  | [] => do
    let state ← dfa.state? index
    return [⟨index, [], if state.accepting then .accepted else .rejected⟩]
  | character :: rest => do
    match ← dfa.next index (String.singleton character) with
    | none => return [⟨index, character :: rest, .stuck character⟩]
    | some target =>
      let steps ← dfa.stepsFrom target rest
      return ⟨index, character :: rest, .moved character target⟩ :: steps

def simulate (dfa : Dfa) (text : String) : Except Failure Run :=
  match dfa.start with
  | none => .ok ⟨[]⟩
  | some start => do return ⟨← dfa.stepsFrom start text.toList⟩

end Dfa
end RegexAutomata
