import RegexAutomata.Proofs.Service.Task

/-!
# Refusals agree

A regular expression that has no tree is refused in the same words whatever is wanted of it, with
what is kept or without.  One that has a tree can be refused for one reason only, which is that its
automata would need too many states.
-/

namespace RegexAutomata

namespace Command

/-- What can be asked of the automata of a regular expression, one of them about a text. -/
def onAutomata (regex : Option String) (text : String) : List Command :=
  [.analyse regex, .perform regex .subset, .perform regex .direct, .perform regex .all,
    .perform regex (.input (some text))]

variable {regex : Option String} {text : String} {command : Command}

theorem onAutomata_cases (hcommand : command ∈ onAutomata regex text) :
    command = .analyse regex ∨
      ∃ task report, command = .perform regex task ∧ task.report? = some report := by
  simp only [onAutomata, List.mem_cons, List.not_mem_nil, or_false] at hcommand
  rcases hcommand with rfl | rfl | rfl | rfl | rfl
  · exact Or.inl rfl
  all_goals exact Or.inr ⟨_, _, rfl, rfl⟩

theorem wanted_of_onAutomata {wanted : String}
    (hcommand : command ∈ onAutomata (some wanted) text) : command.wanted? = some wanted := by
  simp only [onAutomata, List.mem_cons, List.not_mem_nil, or_false] at hcommand
  rcases hcommand with rfl | rfl | rfl | rfl | rfl <;> rfl

end Command

namespace Session

variable {session : Session} {conditions : Conditions} {regex : Option String} {text : String}
  {command : Command} {refusal : Refusal}

/-- Without an analysis nothing is said about automata. -/
theorem obey_onAutomata_of_error {after : Session}
    (hcommand : command ∈ Command.onAutomata regex text)
    (hanalyse : session.analyse conditions regex = (.error refusal, after)) :
    session.obey conditions command = (.refused refusal, after) := by
  rcases Command.onAutomata_cases hcommand with rfl | ⟨task, report, rfl, htask⟩
  · simp only [obey, hanalyse]
  · simp only [obey, perform_of_report htask, reportOn, hanalyse]
    rfl

/-- What cannot be read is never kept, so that it is read again and refused again. -/
theorem Faithful.analyse_of_unreadable (hsession : session.Faithful) {wanted : String}
    {fault : SyntaxError} (hchecked : checked conditions regex = .ok wanted)
    (hparse : Regex.parse wanted = .error fault) :
    session.analyse conditions regex = (.error (.rejected fault.diagnostic), session) := by
  rcases session.analyse_cases conditions regex with ⟨_, hrefused, -⟩ |
    ⟨other, hother, ⟨kept, hkept, rfl, -⟩ |
      ⟨-, ⟨made, hbuild, -⟩ | ⟨failure, hbuild, hresult⟩⟩⟩
  · cases hrefused.symm.trans hchecked
  · obtain rfl := Except.ok.inj (hother.symm.trans hchecked)
    obtain ⟨_, hmade⟩ := hsession kept hkept
    cases (Analysis.sound_of_build hmade).parsed.symm.trans hparse
  · obtain rfl := Except.ok.inj (hother.symm.trans hchecked)
    cases (Analysis.build_of_parse_eq_error hparse conditions).symm.trans hbuild
  · obtain rfl := Except.ok.inj (hother.symm.trans hchecked)
    obtain rfl := Except.error.inj
      ((Analysis.build_of_parse_eq_error hparse conditions).symm.trans hbuild)
    exact hresult

/-- What has no tree has no analysis, for the same reason. -/
theorem Faithful.analyse_of_treeReport (hsession : session.Faithful)
    (hreport : treeReport conditions regex = .error refusal) :
    (∃ diagnostic, refusal = .rejected diagnostic) ∧
      session.analyse conditions regex = (.error refusal, session) := by
  rcases treeReport_cases conditions regex with ⟨_, hchecked, hrefused⟩ |
    ⟨wanted, hchecked, ⟨fault, hparse, hrejected⟩ | ⟨tree, data, -, hdata⟩⟩
  · obtain rfl := Except.error.inj (hrefused.symm.trans hreport)
    exact ⟨rejected_of_checked hchecked, by rw [Session.analyse, hchecked]⟩
  · obtain rfl := Except.error.inj (hrejected.symm.trans hreport)
    exact ⟨⟨_, rfl⟩, hsession.analyse_of_unreadable hchecked hparse⟩
  · cases hdata.symm.trans hreport

/-- What has a tree has an analysis, unless there are too many states or an outage. -/
theorem analyse_of_parse {wanted : String} {tree : Regex} (hworks : conditions.outage = false)
    (hchecked : checked conditions regex = .ok wanted) (hparse : Regex.parse wanted = .ok tree) :
    (∃ analysis after, session.analyse conditions regex = (.ok analysis, after)) ∨
      ∃ limit, conditions.maxStates = some limit ∧ session.analyse conditions regex =
        (.error (.rejected ⟨"DFA状态数超过上限 " ++ toString limit, none⟩), session) := by
  rcases session.analyse_cases conditions regex with ⟨_, hrefused, -⟩ |
    ⟨other, hother, ⟨kept, -, -, hresult⟩ |
      ⟨-, ⟨made, -, hresult⟩ | ⟨failure, hbuild, hresult⟩⟩⟩
  · cases hrefused.symm.trans hchecked
  · exact Or.inl ⟨kept, session, hresult⟩
  · exact Or.inl ⟨made, _, hresult⟩
  · obtain rfl := Except.ok.inj (hother.symm.trans hchecked)
    obtain ⟨made, hmade⟩ := Analysis.exists_build_eq_ok hparse
    obtain ⟨limit, hlimit, rfl⟩ := Analysis.tooManyStates_of_build hmade hworks hbuild
    exact Or.inr ⟨limit, hlimit, hresult⟩

/-- After any history, if there is no tree for a regular expression because the input is at fault,
then everything else that is asked of it is refused with the same diagnostic, and the session stays
as it is.  If there is a tree, then all else is answered, or is refused for too many states. -/
theorem refusals_agree (history : List (Conditions × Command)) (maxLength maxStates : Option Int)
    (regex : Option String) (text : String) :
    (∀ refusal, ((replay history).obey { maxLength, maxStates } (.perform regex .tree)).1 =
          .refused refusal →
        (∃ diagnostic, refusal = .rejected diagnostic) ∧
          ∀ command ∈ Command.onAutomata regex text,
            (replay history).obey { maxLength, maxStates } command =
              (.refused refusal, replay history)) ∧
      (((replay history).obey { maxLength, maxStates } (.perform regex .tree)).1.IsGiven →
        ∀ command ∈ Command.onAutomata regex text,
          ((replay history).obey { maxLength, maxStates } command).1.IsGiven ∨
            ∃ limit, maxStates = some limit ∧
              (replay history).obey { maxLength, maxStates } command =
                (.refused (.rejected ⟨"DFA状态数超过上限 " ++ toString limit, none⟩),
                  replay history)) := by
  have hfaithful := faithful_replay history
  have htree : ((replay history).obey { maxLength, maxStates } (.perform regex .tree)).1 =
      .ofResult (treeReport { maxLength, maxStates } regex) := rfl
  rw [htree]
  constructor
  · intro refusal hrefused
    have hreport : treeReport { maxLength, maxStates } regex = .error refusal := by
      cases hreport : treeReport { maxLength, maxStates } regex with
      | ok data => rw [hreport] at hrefused; cases hrefused
      | error other => rw [hreport] at hrefused; cases hrefused; rfl
    obtain ⟨hrejected, hanalyse⟩ := hfaithful.analyse_of_treeReport hreport
    exact ⟨hrejected, fun command hcommand => obey_onAutomata_of_error hcommand hanalyse⟩
  · intro hgiven command hcommand
    rcases treeReport_cases { maxLength, maxStates } regex with ⟨_, -, hrefused⟩ |
      ⟨wanted, hchecked, ⟨_, -, hrejected⟩ | ⟨tree, data, hparse, -⟩⟩
    · rw [hrefused] at hgiven
      exact absurd rfl (hgiven _)
    · rw [hrejected] at hgiven
      exact absurd rfl (hgiven _)
    · obtain rfl := checked_eq_ok hchecked
      rcases @analyse_of_parse (replay history) { maxLength, maxStates } _ wanted tree rfl hchecked
        hparse with ⟨analysis, after, hanalyse⟩ | ⟨limit, hlimit, hanalyse⟩
      · obtain ⟨⟨_, hbuild⟩, -⟩ := (hfaithful.analyse { maxLength, maxStates } _).2 analysis
          (congrArg Prod.fst hanalyse)
        have hwanted := Command.wanted_of_onAutomata hcommand
        exact Or.inl ((obey_of_ok hwanted hanalyse).2 (Analysis.sound_of_build hbuild))
      · exact Or.inr ⟨limit, hlimit, obey_onAutomata_of_error hcommand hanalyse⟩

/-- A session that has analysed a regular expression and was then asked for another one in vain. -/
def settled : List (Conditions × Command) :=
  [({}, .analyse (some "ab*")), ({ maxStates := some 2 }, .perform (some "(a|b)*abb") .all)]

theorem refusals_agree_settled :
    (∀ command ∈ Command.onAutomata (some "a(b") "ab",
        (replay settled).obey { maxLength := some 3, maxStates := some 2 } command =
          (.refused (.rejected ⟨"左括号没有匹配的右括号", some 1⟩), replay settled)) ∧
      ∀ command ∈ Command.onAutomata (some "abc") "ab",
        ((replay settled).obey { maxLength := some 3, maxStates := some 2 } command).1.IsGiven ∨
          ∃ limit : Int, some 2 = some limit ∧
            (replay settled).obey { maxLength := some 3, maxStates := some 2 } command =
              (.refused (.rejected ⟨"DFA状态数超过上限 " ++ toString limit, none⟩),
                replay settled) :=
  ⟨((refusals_agree settled (some 3) (some 2) (some "a(b") "ab").1 _ rfl).2,
    (refusals_agree settled (some 3) (some 2) (some "abc") "ab").2 (by decide +kernel)⟩

end Session
end RegexAutomata
