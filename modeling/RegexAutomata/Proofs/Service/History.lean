import RegexAutomata.Proofs.Service.Conditions
import RegexAutomata.Proofs.Service.Session

/-!
# What a session keeps

What a session keeps is told by what it has answered: it is the analysis of the regular expression
that automata were last given for, unless the session was reset after that.  A command that is
refused, or that asks for no automata, leaves it alone.
-/

namespace RegexAutomata

/-- The report on an analysis that a task asks for, if an analysis has to be made for it. -/
def Task.report? : Task → Option (Analysis → Except Failure Json)
  | .tree => none
  | .subset => some fun analysis => .ok analysis.subsetReport
  | .direct => some Analysis.directReport
  | .all => some Analysis.report
  | .input none => none
  | .input (some text) => some fun analysis => Session.runReport analysis text

namespace Command

/-- The regular expression that a command asks automata for. -/
def target? : Command → Option String
  | .reset | .current | .perform _ .tree => none
  | .analyse regex | .perform regex _ => regex

/-- The regular expression that is analysed for a command, which is none if there is no text to run
the automata on. -/
def wanted? : Command → Option String
  | .perform _ (.input none) => none
  | command => command.target?

theorem target_of_wanted {command : Command} {text : String}
    (hwanted : command.wanted? = some text) : command.target? = some text := by
  unfold wanted? at hwanted
  split at hwanted
  · cases hwanted
  · exact hwanted

/-- A command that has something analysed only asks for the analysis, or for a report on it. -/
theorem wanted_cases {command : Command} {text : String} (hwanted : command.wanted? = some text) :
    command = .analyse (some text) ∨
      ∃ task report, command = .perform (some text) task ∧ task.report? = some report := by
  cases command with
  | reset => cases hwanted
  | current => cases hwanted
  | analyse regex =>
    obtain rfl : regex = some text := hwanted
    exact Or.inl rfl
  | perform regex task =>
    refine Or.inr ⟨task, ?_⟩
    cases task with
    | tree => cases hwanted
    | input given =>
      cases given with
      | none => cases hwanted
      | some given =>
        obtain rfl : regex = some text := hwanted
        exact ⟨_, rfl, rfl⟩
    | _ =>
      obtain rfl : regex = some text := hwanted
      exact ⟨_, rfl, rfl⟩

end Command

namespace Answer

def IsGiven (answer : Answer) : Prop :=
  ∀ refusal, answer ≠ .refused refusal

instance (answer : Answer) : Decidable answer.IsGiven :=
  match answer with
  | .refused refusal => isFalse fun hgiven => hgiven refusal rfl
  | .nothing => isTrue nofun
  | .analysis _ => isTrue nofun
  | .data _ => isTrue nofun

theorem not_isGiven_iff {answer : Answer} :
    ¬ answer.IsGiven ↔ ∃ refusal, answer = .refused refusal := by
  simp [IsGiven]

theorem isGiven_ofResult_iff {result : Except Refusal Json} :
    (ofResult result).IsGiven ↔ ∃ data, result = .ok data := by
  cases result <;> simp [IsGiven, ofResult]

end Answer

/-- Every report on a sound analysis can be given. -/
theorem Analysis.Sound.exists_report {analysis : Analysis} (hsound : analysis.Sound) {task : Task}
    {report : Analysis → Except Failure Json} (htask : task.report? = some report) :
    ∃ data, report analysis = .ok data := by
  cases task with
  | tree => cases htask
  | subset =>
    cases htask
    exact ⟨_, rfl⟩
  | direct =>
    cases htask
    obtain ⟨entries, hentries⟩ := hsound.listed
    exact ⟨_, by rw [Analysis.directReport, hentries]; rfl⟩
  | all =>
    cases htask
    obtain ⟨data, hdata, -⟩ := hsound.report
    exact ⟨data, hdata⟩
  | input text =>
    cases text with
    | none => cases htask
    | some text =>
      cases htask
      obtain ⟨data, -, hdata, -⟩ := hsound.runReport text
      exact ⟨data, hdata⟩

namespace Session

variable {session after : Session} {conditions : Conditions} {regex : Option String} {text : String}
  {command : Command} {analysis : Analysis}

section Analyse

/-- There is an analysis if the regular expression may be asked for and is the current one or can be
made. -/
theorem analyse_eq_ok_iff :
    session.analyse conditions regex = (.ok analysis, after) ↔
      checked conditions regex = .ok analysis.regex ∧ after = ⟨some analysis⟩ ∧
        (session.current = some analysis ∨ session.regex ≠ some analysis.regex ∧
          Analysis.build conditions analysis.regex = .ok analysis) := by
  constructor
  · intro hanalyse
    rcases session.analyse_cases conditions regex with ⟨_, -, hresult⟩ |
      ⟨text, hchecked, ⟨kept, hcurrent, rfl, hresult⟩ |
        ⟨hother, ⟨made, hbuild, hresult⟩ | ⟨_, -, hresult⟩⟩⟩
    · cases hresult.symm.trans hanalyse
    · cases hresult.symm.trans hanalyse
      exact ⟨hchecked, congrArg Session.mk hcurrent, Or.inl hcurrent⟩
    · cases hresult.symm.trans hanalyse
      obtain rfl := (Analysis.build_eq_ok hbuild).1
      exact ⟨hchecked, rfl, Or.inr ⟨hother, hbuild⟩⟩
    · cases hresult.symm.trans hanalyse
  · rintro ⟨hchecked, rfl, hcurrent | ⟨hother, hbuild⟩⟩
    · obtain rfl : session = ⟨some analysis⟩ := congrArg Session.mk hcurrent
      simp [analyse, hchecked, Option.filter]
    · have hmissed : (session.current.filter fun kept => kept.regex = analysis.regex) = none := by
        rw [Option.filter_eq_none_iff]
        intro kept hkept hsame
        exact hother (Option.map_eq_some_iff.2 ⟨kept, hkept, of_decide_eq_true hsame⟩)
      simp only [analyse, hchecked, hmissed, hbuild]

/-- Without an analysis the session stays as it is. -/
theorem analyse_eq_error {refusal : Refusal}
    (hanalyse : session.analyse conditions regex = (.error refusal, after)) : after = session := by
  rcases session.analyse_cases conditions regex with ⟨_, -, hresult⟩ |
    ⟨_, -, ⟨_, -, -, hresult⟩ | ⟨-, ⟨_, -, hresult⟩ | ⟨_, -, hresult⟩⟩⟩
  · cases hresult.symm.trans hanalyse
    rfl
  · cases hresult.symm.trans hanalyse
  · cases hresult.symm.trans hanalyse
  · cases hresult.symm.trans hanalyse
    rfl

end Analyse

section Obey

theorem perform_of_report {task : Task} {report : Analysis → Except Failure Json}
    (htask : task.report? = some report) :
    session.perform conditions regex task = session.reportOn conditions regex report := by
  cases task with
  | tree => cases htask
  | input text => cases text <;> cases htask; rfl
  | _ => cases htask; rfl

theorem obey_of_error {refusal : Refusal} (hwanted : command.wanted? = some text)
    (hanalyse : session.analyse conditions (some text) = (.error refusal, after)) :
    session.obey conditions command = (.refused refusal, after) := by
  rcases Command.wanted_cases hwanted with rfl | ⟨task, report, rfl, htask⟩
  · simp only [obey, hanalyse]
  · simp only [obey, perform_of_report htask, reportOn, hanalyse]
    rfl

theorem obey_of_ok (hwanted : command.wanted? = some text)
    (hanalyse : session.analyse conditions (some text) = (.ok analysis, after)) :
    (session.obey conditions command).2 = after ∧
      (analysis.Sound → (session.obey conditions command).1.IsGiven) := by
  rcases Command.wanted_cases hwanted with rfl | ⟨task, report, rfl, htask⟩
  · simp [obey, hanalyse, Answer.IsGiven]
  · simp only [obey, perform_of_report htask, reportOn, hanalyse, true_and]
    intro hsound
    obtain ⟨data, hdata⟩ := hsound.exists_report htask
    rw [Answer.isGiven_ofResult_iff]
    exact ⟨data, Traversal.bind_eq_ok_iff.2 ⟨analysis, rfl, Traversal.mapError_eq_ok_iff.2 hdata⟩⟩

/-- A command for which nothing is analysed does not touch the session, unless it is a reset. -/
theorem obey_of_not_wanted (session : Session) (conditions : Conditions)
    (hwanted : command.wanted? = none) :
    (command = .reset ∧ session.obey conditions command = (.nothing, fresh)) ∨
      (command.target? = none ∧ (session.obey conditions command).2 = session) ∨
      ∃ refusal, session.obey conditions command = (.refused refusal, session) := by
  cases command with
  | reset => exact Or.inl ⟨rfl, rfl⟩
  | current => exact Or.inr (Or.inl ⟨rfl, rfl⟩)
  | analyse regex =>
    obtain rfl : regex = none := hwanted
    exact Or.inr (Or.inr ⟨_, rfl⟩)
  | perform regex task =>
    cases task with
    | tree => exact Or.inr (Or.inl ⟨rfl, rfl⟩)
    | input given =>
      cases given with
      | none => exact Or.inr (Or.inr ⟨_, rfl⟩)
      | some given =>
        obtain rfl : regex = none := hwanted
        exact Or.inr (Or.inr ⟨_, rfl⟩)
    | _ =>
      obtain rfl : regex = none := hwanted
      exact Or.inr (Or.inr ⟨_, rfl⟩)

/-- What a command leaves: a reset leaves nothing, a command without automata and a refused one
leave the session as it is, and one that is answered leaves the analysis that it is answered from,
which was there before or was made for it. -/
theorem obey_cases (session : Session) (conditions : Conditions) (command : Command) :
    (command = .reset ∧ session.obey conditions command = (.nothing, fresh)) ∨
      (command.target? = none ∧ (session.obey conditions command).2 = session) ∨
      (∃ refusal, session.obey conditions command = (.refused refusal, session)) ∨
      ∃ analysis, (session.obey conditions command).1.IsGiven ∧
        command.target? = some analysis.regex ∧
        (session.obey conditions command).2 = ⟨some analysis⟩ ∧
        (session.current = some analysis ∨
          Analysis.build conditions analysis.regex = .ok analysis) := by
  cases hwanted : command.wanted? with
  | none =>
    rcases obey_of_not_wanted session conditions hwanted with hreset | hidle | hrefused
    · exact Or.inl hreset
    · exact Or.inr (Or.inl hidle)
    · exact Or.inr (Or.inr (Or.inl hrefused))
  | some text =>
    refine Or.inr (Or.inr ?_)
    obtain ⟨result, after, hanalyse⟩ : ∃ result after,
      session.analyse conditions (some text) = (result, after) := ⟨_, _, rfl⟩
    cases result with
    | error refusal =>
      obtain rfl := analyse_eq_error hanalyse
      exact Or.inl ⟨refusal, obey_of_error hwanted hanalyse⟩
    | ok analysis =>
      obtain ⟨hafter, hgiven⟩ := obey_of_ok hwanted hanalyse
      obtain ⟨hchecked, rfl, hcurrent⟩ := analyse_eq_ok_iff.1 hanalyse
      have htarget : command.target? = some analysis.regex := by
        rw [Command.target_of_wanted hwanted, checked_eq_ok hchecked]
      by_cases hanswer : (session.obey conditions command).1.IsGiven
      · exact Or.inr ⟨analysis, hanswer, htarget, hafter, hcurrent.imp_right And.right⟩
      · obtain ⟨refusal, hrefused⟩ := Answer.not_isGiven_iff.1 hanswer
        refine Or.inl ⟨refusal, Prod.ext hrefused (hafter.trans ?_)⟩
        -- a report can only be missing on what was kept without having been made
        rcases hcurrent with hkept | ⟨-, hbuild⟩
        · exact (congrArg Session.mk hkept).symm
        · exact absurd (hgiven (Analysis.sound_of_build hbuild)) hanswer

theorem obey_of_not_isGiven (hanswer : ¬ (session.obey conditions command).1.IsGiven) :
    (session.obey conditions command).2 = session := by
  rcases session.obey_cases conditions command with ⟨-, hequal⟩ | ⟨-, hsame⟩ | ⟨refusal, hrefused⟩ |
    ⟨analysis, hgiven, -⟩
  · exact absurd (by simp [hequal, Answer.IsGiven]) hanswer
  · exact hsame
  · rw [hrefused]
  · exact absurd hgiven hanswer

end Obey

section History

def transcript : Session → List (Conditions × Command) → List (Command × Answer)
  | _, [] => []
  | session, (conditions, command) :: rest =>
    let (answer, after) := session.obey conditions command
    (command, answer) :: after.transcript rest

/-- The regular expression that automata have been given for, after one more command. -/
def noted (known : Option String) : Command × Answer → Option String
  | (.reset, _) => none
  | (_, .refused _) => known
  | (command, _) => command.target? <|> known

/-- The regular expression that automata were last given for, unless a reset came after that. -/
def lastGiven (exchanges : List (Command × Answer)) : Option String :=
  exchanges.foldl noted none

/-- The session keeps the analysis of this regular expression, the same as is made without limits,
or nothing if there is none. -/
def Keeps (session : Session) : Option String → Prop
  | none => session.current = none
  | some text => ∃ analysis, Analysis.build {} text = .ok analysis ∧ session.current = some analysis

variable {known : Option String} {answer : Answer}

theorem noted_of_idle (htarget : command.target? = none) (hreset : command ≠ .reset) :
    noted known (command, answer) = known := by
  cases command <;> cases answer <;> simp [noted, htarget] at hreset ⊢

theorem noted_of_refused (hreset : command ≠ .reset) (refusal : Refusal) :
    noted known (command, .refused refusal) = known := by
  cases command <;> simp [noted] at hreset ⊢

theorem noted_of_isGiven (htarget : command.target? = some text) (hgiven : answer.IsGiven) :
    noted known (command, answer) = some text := by
  cases answer with
  | refused refusal => exact absurd rfl (hgiven refusal)
  | _ => cases command <;> simp_all [noted, Command.target?]

/-- Whatever the command is, what is kept is then what was last given. -/
theorem Keeps.obey (hkeeps : session.Keeps known) (conditions : Conditions) (command : Command) :
    (session.obey conditions command).2.Keeps
      (noted known (command, (session.obey conditions command).1)) := by
  by_cases hreset : command = .reset
  · subst hreset
    exact rfl
  rcases session.obey_cases conditions command with ⟨hequal, -⟩ | ⟨htarget, hsame⟩ |
    ⟨refusal, hrefused⟩ | ⟨analysis, hgiven, htarget, hafter, hcurrent⟩
  · exact absurd hequal hreset
  · rwa [noted_of_idle htarget hreset, hsame]
  · rwa [hrefused, noted_of_refused hreset]
  · rw [noted_of_isGiven htarget hgiven, hafter]
    rcases hcurrent with hkept | hbuild
    · cases known with
      | none => cases hkept.symm.trans hkeeps
      | some text =>
        obtain ⟨made, hmade, hcurrent⟩ := hkeeps
        obtain rfl := Option.some.inj (hkept.symm.trans hcurrent)
        obtain rfl := (Analysis.build_eq_ok hmade).1
        exact ⟨analysis, hmade, rfl⟩
    · exact ⟨analysis, Analysis.build_unlimited hbuild, rfl⟩

theorem Keeps.foldl (hkeeps : session.Keeps known) (history : List (Conditions × Command)) :
    (history.foldl (fun session call => (session.obey call.1 call.2).2) session).Keeps
      ((session.transcript history).foldl noted known) := by
  induction history generalizing session known with
  | nil => exact hkeeps
  | cons call rest ih => exact ih (hkeeps.obey call.1 call.2)

/-- After any history the session keeps nothing if automata were given for no regular expression
since the last reset, and otherwise all that is made, without limits, of the one that they were last
given for.  A command that has no answer, that asks for what is kept, or that asks for a tree leaves
the session as it is, whatever it keeps. -/
theorem current_exact (history : List (Conditions × Command)) :
    (lastGiven (fresh.transcript history) = none → (replay history).current = none) ∧
      (∀ text, lastGiven (fresh.transcript history) = some text →
        ∃ analysis, Analysis.build {} text = .ok analysis ∧ analysis.regex = text ∧
          (replay history).current = some analysis) ∧
      ∀ (session : Session) (conditions : Conditions) (command : Command),
        (¬ (session.obey conditions command).1.IsGiven ∨ command = .current ∨
            ∃ regex, command = .perform regex .tree) →
          (session.obey conditions command).2 = session := by
  have hfresh : fresh.Keeps none := rfl
  have hkeeps : (replay history).Keeps (lastGiven (fresh.transcript history)) :=
    hfresh.foldl history
  refine ⟨fun hnone => ?_, fun text htext => ?_, fun session conditions command hidle => ?_⟩
  · rwa [hnone] at hkeeps
  · rw [htext] at hkeeps
    obtain ⟨analysis, hbuild, hcurrent⟩ := hkeeps
    exact ⟨analysis, hbuild, (Analysis.build_eq_ok hbuild).1, hcurrent⟩
  · rcases hidle with hanswer | rfl | ⟨regex, rfl⟩
    · exact obey_of_not_isGiven hanswer
    · rfl
    · rfl

/-- Two regular expressions are asked for, and then others in vain: one during an outage, one that
is malformed, one that is too large, and one with no text to read. -/
def persistent : List (Conditions × Command) :=
  [({}, .perform (some "a|b") .subset), ({}, .analyse (some "ab*")),
    ({ outage := true }, .perform (some "c") .all), ({}, .analyse (some "a(")),
    ({ maxStates := some 1 }, .perform (some "cd") .direct),
    ({}, .perform (some "e") (.input none)), ({}, .perform (some "f") .tree)]

/-- The same, and a reset after it. -/
def forgotten : List (Conditions × Command) :=
  persistent.concat ({}, .reset)

theorem current_exact_persistent :
    (∃ analysis, Analysis.build {} "ab*" = .ok analysis ∧ analysis.regex = "ab*" ∧
        (replay persistent).current = some analysis) ∧
      (replay forgotten).current = none ∧
      ((replay persistent).obey { outage := true } (.analyse (some "c"))).2 = replay persistent :=
  ⟨(current_exact persistent).2.1 "ab*" (by decide +kernel),
    (current_exact forgotten).1 (by decide +kernel),
    (current_exact []).2.2 (replay persistent) { outage := true } (.analyse (some "c"))
      (Or.inl (by decide +kernel))⟩

end History

end Session
end RegexAutomata
