import RegexAutomata.Proofs.Service.Analysis

/-!
# What a session answers

Whatever a session was asked before, the analysis that it keeps was made of the regular expression
that it is kept for.  So an answer from what is kept is as good as one that is made afresh, and in
each answer the two automata bear each other out.
-/

namespace RegexAutomata.Session

variable {session : Session} {conditions : Conditions} {regex : Option String}

theorem checked_eq_ok {text : String} (hchecked : checked conditions regex = .ok text) :
    regex = some text := by
  unfold checked at hchecked
  split at hchecked
  · cases hchecked
  · cases hchecked
    rfl
  · split at hchecked <;> cases hchecked
    rfl

/-- An analysis is refused, or it is the current one, or it is made and becomes the current one, or
making it fails. -/
theorem analyse_cases (session : Session) (conditions : Conditions) (regex : Option String) :
    (∃ refusal, checked conditions regex = .error refusal ∧
        session.analyse conditions regex = (.error refusal, session)) ∨
      ∃ text, checked conditions regex = .ok text ∧
        ((∃ analysis, session.current = some analysis ∧ analysis.regex = text ∧
            session.analyse conditions regex = (.ok analysis, session)) ∨
          (session.regex ≠ some text ∧
            ((∃ analysis, Analysis.build conditions text = .ok analysis ∧
                session.analyse conditions regex = (.ok analysis, ⟨some analysis⟩)) ∨
              ∃ failure, Analysis.build conditions text = .error failure ∧
                session.analyse conditions regex = (.error (.ofFailure failure), session)))) := by
  cases hchecked : checked conditions regex with
  | error refusal => exact Or.inl ⟨refusal, rfl, by rw [analyse, hchecked]⟩
  | ok text =>
    refine Or.inr ⟨text, rfl, ?_⟩
    cases hcurrent : session.current.filter fun analysis => analysis.regex = text with
    | some analysis =>
      obtain ⟨hkept, hregex⟩ := Option.filter_eq_some_iff.1 hcurrent
      refine Or.inl ⟨analysis, hkept, of_decide_eq_true hregex, ?_⟩
      simp only [analyse, hchecked, hcurrent]
    | none =>
      have hother : session.regex ≠ some text := by
        intro hregex
        obtain ⟨analysis, hkept, hequal⟩ := Option.map_eq_some_iff.1 hregex
        simp [hkept, hequal] at hcurrent
      refine Or.inr ⟨hother, ?_⟩
      cases hbuild : Analysis.build conditions text with
      | ok analysis =>
        refine Or.inl ⟨analysis, rfl, ?_⟩
        simp only [analyse, hchecked, hcurrent, hbuild]
      | error failure =>
        refine Or.inr ⟨failure, rfl, ?_⟩
        simp only [analyse, hchecked, hcurrent, hbuild]

/-- A report on an analysis is given exactly when there is the analysis and the report on it. -/
theorem reportOn_eq_ok_iff {report : Analysis → Except Failure Json} {data : Json}
    {after : Session} :
    session.reportOn conditions regex report = (.ok data, after) ↔
      ∃ analysis, session.analyse conditions regex = (.ok analysis, after) ∧
        report analysis = .ok data := by
  rw [reportOn]
  generalize session.analyse conditions regex = outcome
  obtain ⟨result, next⟩ := outcome
  simp only [Prod.mk.injEq, Traversal.bind_eq_ok_iff, Traversal.mapError_eq_ok_iff]
  constructor
  · rintro ⟨⟨analysis, hresult, hdata⟩, hafter⟩
    exact ⟨analysis, ⟨hresult, hafter⟩, hdata⟩
  · rintro ⟨analysis, ⟨hresult, hafter⟩, hdata⟩
    exact ⟨⟨analysis, hresult, hdata⟩, hafter⟩

/-- What the session keeps was made of one regular expression. -/
def Faithful (session : Session) : Prop :=
  ∀ analysis, session.current = some analysis → analysis.Made

theorem faithful_fresh : fresh.Faithful := by
  intro analysis hcurrent
  cases hcurrent

/-- An analysis belongs to the regular expression in question. -/
theorem Faithful.analyse (hsession : session.Faithful) (conditions : Conditions)
    (regex : Option String) :
    (session.analyse conditions regex).2.Faithful ∧
      ∀ analysis, (session.analyse conditions regex).1 = .ok analysis →
        analysis.Made ∧ regex = some analysis.regex := by
  rcases session.analyse_cases conditions regex with ⟨refusal, -, hresult⟩ |
    ⟨text, hchecked, ⟨analysis, hcurrent, rfl, hresult⟩ |
      ⟨-, ⟨analysis, hbuild, hresult⟩ | ⟨failure, -, hresult⟩⟩⟩
  · rw [hresult]
    exact ⟨hsession, fun _ hnever => by cases hnever⟩
  · rw [hresult]
    refine ⟨hsession, fun other hother => ?_⟩
    obtain rfl := Except.ok.inj hother
    exact ⟨hsession analysis hcurrent, checked_eq_ok hchecked⟩
  · rw [hresult]
    have hregex := (Analysis.build_eq_ok hbuild).1
    have hmade : analysis.Made := ⟨conditions, hregex ▸ hbuild⟩
    refine ⟨fun other hother => ?_, fun other hother => ?_⟩
    · obtain rfl := Option.some.inj hother
      exact hmade
    · obtain rfl := Except.ok.inj hother
      exact ⟨hmade, hregex ▸ checked_eq_ok hchecked⟩
  · rw [hresult]
    exact ⟨hsession, fun _ hnever => by cases hnever⟩

/-- No command spoils what is kept. -/
theorem Faithful.obey (hsession : session.Faithful) (conditions : Conditions) (command : Command) :
    (session.obey conditions command).2.Faithful := by
  cases command with
  | reset => exact faithful_fresh
  | current => exact hsession
  | analyse regex =>
    have hafter := (hsession.analyse conditions regex).1
    rw [Session.obey]
    split <;> next hresult => rwa [hresult] at hafter
  | perform regex task =>
    have hafter := (hsession.analyse conditions regex).1
    cases task with
    | tree => exact hsession
    | subset => exact hafter
    | direct => exact hafter
    | all => exact hafter
    | input text =>
      cases text with
      | none => exact hsession
      | some text => exact hafter

def replay (history : List (Conditions × Command)) : Session :=
  history.foldl (fun session call => (session.obey call.1 call.2).2) fresh

theorem faithful_replay (history : List (Conditions × Command)) : (replay history).Faithful := by
  have hkeeps : ∀ start : Session, start.Faithful →
      (history.foldl (fun session call => (session.obey call.1 call.2).2) start).Faithful := by
    induction history with
    | nil => exact fun start hstart => hstart
    | cons call rest ih => exact fun start hstart => ih _ (hstart.obey call.1 call.2)
  exact hkeeps fresh faithful_fresh

/-- Whatever came before, a session analyses soundly. -/
theorem sound_of_analyse (history : List (Conditions × Command)) {analysis : Analysis}
    {after : Session}
    (hanalysis : (replay history).analyse conditions regex = (.ok analysis, after)) :
    analysis.Sound ∧ regex = some analysis.regex := by
  obtain ⟨⟨_, hbuild⟩, hregex⟩ := ((faithful_replay history).analyse conditions regex).2 analysis
    (congrArg Prod.fst hanalysis)
  exact ⟨Analysis.sound_of_build hbuild, hregex⟩

/-- The two constructions check each other, and the check is right: after any history, the report on
everything says that the automata are equivalent, the report on a text says that both runs end alike
and whether the text is a word of the regular expression, and neither fails once there is an
analysis. -/
theorem crossCheck_exact (history : List (Conditions × Command)) (conditions : Conditions)
    (regex : Option String) :
    (∀ report after, (replay history).perform conditions regex .all = (.ok report, after) →
        report.member? "equivalent" = some (.bool true)) ∧
      (∀ text report after,
        (replay history).perform conditions regex (.input (some text)) = (.ok report, after) →
          ∃ written tree answer, regex = some written ∧ Regex.parse written = .ok tree ∧
            report.member? "consistent" = some (.bool true) ∧
            report.member? "accepted" = some (.bool answer) ∧
            (answer = true ↔ symbolsOf text ∈ tree.language)) ∧
      ∀ analysis after, (replay history).analyse conditions regex = (.ok analysis, after) →
        (∃ report, (replay history).perform conditions regex .all = (.ok report, after)) ∧
          ∀ text, ∃ report, (replay history).perform conditions regex (.input (some text)) =
            (.ok report, after) := by
  refine ⟨fun report after hperform => ?_, fun text report after hperform => ?_,
    fun analysis after hanalysis => ⟨?_, fun text => ?_⟩⟩
  · obtain ⟨analysis, hanalysis, hreport⟩ := reportOn_eq_ok_iff.1 hperform
    obtain ⟨hsound, -⟩ := sound_of_analyse history hanalysis
    obtain ⟨other, hother, hequivalent⟩ := hsound.report
    rwa [Except.ok.inj (hreport.symm.trans hother)]
  · obtain ⟨analysis, hanalysis, hreport⟩ := reportOn_eq_ok_iff.1 hperform
    obtain ⟨hsound, hregex⟩ := sound_of_analyse history hanalysis
    obtain ⟨other, answer, hother, hconsistent, haccepted, hanswer⟩ := hsound.runReport text
    obtain rfl := Except.ok.inj (hreport.symm.trans hother)
    exact ⟨analysis.regex, analysis.tree, answer, hregex, hsound.parsed, hconsistent, haccepted,
      hanswer⟩
  · obtain ⟨report, hreport, -⟩ := (sound_of_analyse history hanalysis).1.report
    exact ⟨report, reportOn_eq_ok_iff.2 ⟨analysis, hanalysis, hreport⟩⟩
  · obtain ⟨report, -, hreport, -⟩ := (sound_of_analyse history hanalysis).1.runReport text
    exact ⟨report, reportOn_eq_ok_iff.2 ⟨analysis, hanalysis, hreport⟩⟩

def seen : List (Conditions × Command) :=
  [({}, .analyse (some "ab*"))]

/-- What is kept serves again, also where it could not be made any more. -/
theorem analyse_seen : ∃ analysis, (replay seen).analyse { maxStates := some 1 } (some "ab*") =
    (.ok analysis, ⟨some analysis⟩) := by
  obtain ⟨analysis, hbuild⟩ := @Analysis.exists_build_eq_ok "ab*"
    (.concat (.char "a") (.star (.char "b"))) rfl
  have hkept : replay seen = ⟨some analysis⟩ := by
    simp [replay, seen, obey, analyse, fresh, checked, hbuild]
  have hregex : analysis.regex = "ab*" := (Analysis.build_eq_ok hbuild).1
  exact ⟨analysis, by simp [hkept, analyse, checked, hregex, Option.filter]⟩

theorem crossCheck_exact_seen :
    (∃ report after,
        (replay seen).perform { maxStates := some 1 } (some "ab*") .all = (.ok report, after) ∧
          report.member? "equivalent" = some (.bool true)) ∧
      ∃ report after answer,
        (replay seen).perform { maxStates := some 1 } (some "ab*") (.input (some "abc")) =
            (.ok report, after) ∧
          report.member? "consistent" = some (.bool true) ∧
          report.member? "accepted" = some (.bool answer) ∧
          (answer = true ↔
            symbolsOf "abc" ∈ (Regex.concat (.char "a") (.star (.char "b"))).language) := by
  obtain ⟨hall, hinput, hgiven⟩ := crossCheck_exact seen { maxStates := some 1 } (some "ab*")
  obtain ⟨analysis, hanalysis⟩ := analyse_seen
  obtain ⟨⟨whole, hwhole⟩, hruns⟩ := hgiven analysis _ hanalysis
  obtain ⟨runs, hruns⟩ := hruns "abc"
  obtain ⟨written, tree, answer, hwritten, hparse, hconsistent, haccepted, hanswer⟩ :=
    hinput "abc" runs _ hruns
  obtain rfl := Option.some.inj hwritten
  have htree : tree = .concat (.char "a") (.star (.char "b")) :=
    Except.ok.inj (hparse.symm.trans rfl)
  exact ⟨⟨whole, _, hwhole, hall whole _ hwhole⟩, runs, _, answer, hruns, hconsistent, haccepted,
    htree ▸ hanswer⟩

end RegexAutomata.Session
