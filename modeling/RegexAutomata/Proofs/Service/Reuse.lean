import RegexAutomata.Proofs.Service.History

/-!
# Limits and what is kept

A limit on the states only counts when automata are made.  Those that a session keeps are given
again whatever the limit is by then, so that an answer tells no more than that the automata are
within the limit, or were there before.
-/

namespace RegexAutomata

/-- The same conditions, but without a limit on the states and without an outage. -/
def Conditions.relaxed (conditions : Conditions) : Conditions :=
  { conditions with maxStates := none, outage := false }

namespace Analysis

variable {conditions : Conditions} {text : String} {analysis : Analysis}

/-- What was made keeps to the limit that it was made with. -/
theorem fits_of_build (hbuild : build conditions text = .ok analysis) : analysis.Fits conditions :=
  ((build_eq_ok_iff (build_unlimited hbuild)).1 hbuild).2.1

/-- What was made can be made again under relaxed conditions. -/
theorem Made.build_relaxed (hmade : analysis.Made) (conditions : Conditions) :
    build conditions.relaxed analysis.regex = .ok analysis := by
  obtain ⟨_, hbuild⟩ := hmade
  exact (build_eq_ok_iff (build_unlimited hbuild)).2 ⟨rfl, fits_of_none rfl, rfl⟩

end Analysis

namespace Session

variable {session : Session} {conditions : Conditions} {command : Command} {text : String}

/-- There is an analysis if the regular expression is not too long, and is the current one or can be
analysed. -/
theorem exists_analyse_eq_ok_iff :
    (∃ analysis after, session.analyse conditions (some text) = (.ok analysis, after)) ↔
      checked conditions (some text) = .ok text ∧
        (session.regex = some text ∨ ∃ made, Analysis.build conditions text = .ok made) := by
  constructor
  · rintro ⟨analysis, after, hanalyse⟩
    obtain ⟨hchecked, -, hcurrent⟩ := analyse_eq_ok_iff.1 hanalyse
    obtain rfl := Option.some.inj (checked_eq_ok hchecked)
    refine ⟨hchecked, hcurrent.imp (fun hkept => ?_) fun hmade => ⟨analysis, hmade.2⟩⟩
    exact Option.map_eq_some_iff.2 ⟨analysis, hkept, rfl⟩
  · rintro ⟨hchecked, hpossible⟩
    by_cases hregex : session.regex = some text
    · obtain ⟨analysis, hkept, rfl⟩ := Option.map_eq_some_iff.1 hregex
      exact ⟨analysis, _, analyse_eq_ok_iff.2 ⟨hchecked, rfl, Or.inl hkept⟩⟩
    · obtain ⟨made, hbuild⟩ := hpossible.resolve_left hregex
      obtain rfl := (Analysis.build_eq_ok hbuild).1
      exact ⟨made, _, analyse_eq_ok_iff.2 ⟨hchecked, rfl, Or.inr ⟨hregex, hbuild⟩⟩⟩

/-- A session that keeps what was made answers whenever there is an analysis. -/
theorem Faithful.isGiven_iff (hsession : session.Faithful) (hwanted : command.wanted? = some text) :
    (session.obey conditions command).1.IsGiven ↔
      checked conditions (some text) = .ok text ∧
        (session.regex = some text ∨ ∃ made, Analysis.build conditions text = .ok made) := by
  rw [← exists_analyse_eq_ok_iff]
  obtain ⟨result, after, hanalyse⟩ : ∃ result after,
    session.analyse conditions (some text) = (result, after) := ⟨_, _, rfl⟩
  cases result with
  | error refusal =>
    rw [obey_of_error hwanted hanalyse, hanalyse]
    simp [Answer.IsGiven]
  | ok analysis =>
    obtain ⟨⟨_, hbuild⟩, -⟩ := (hsession.analyse conditions (some text)).2 analysis
      (congrArg Prod.fst hanalyse)
    exact iff_of_true ((obey_of_ok hwanted hanalyse).2 (Analysis.sound_of_build hbuild))
      ⟨analysis, after, hanalyse⟩

theorem not_isGiven_of_not_wanted (session : Session) (conditions : Conditions)
    (htarget : command.target? = some text) (hwanted : command.wanted? = none) :
    ¬ (session.obey conditions command).1.IsGiven := by
  rcases obey_of_not_wanted session conditions hwanted with ⟨rfl, -⟩ | ⟨hnone, -⟩ |
    ⟨refusal, hrefused⟩
  · cases htarget
  · cases hnone.symm.trans htarget
  · exact Answer.not_isGiven_iff.2 ⟨refusal, congrArg Prod.fst hrefused⟩

/-- After any history there is an answer if there would be one from the start, or if the regular
expression is the current one and there would be one under relaxed conditions.  The automata that
are answered from are within the limit on the states, or were current before. -/
theorem reuse_exact (history : List (Conditions × Command)) (conditions : Conditions)
    (command : Command) (text : String) (htarget : command.target? = some text) :
    (((replay history).obey conditions command).1.IsGiven ↔
        (fresh.obey conditions command).1.IsGiven ∨
          (replay history).regex = some text ∧
            (fresh.obey conditions.relaxed command).1.IsGiven) ∧
      (((replay history).obey conditions command).1.IsGiven →
        ∃ analysis, ((replay history).obey conditions command).2.current = some analysis ∧
          analysis.regex = text ∧
          ((replay history).current = some analysis ∨ analysis.Fits conditions)) := by
  constructor
  · cases hwanted : command.wanted? with
    | none =>
      have hnever (session : Session) (conditions : Conditions) :=
        not_isGiven_of_not_wanted session conditions htarget hwanted
      simp [hnever]
    | some wanted =>
      obtain rfl : wanted = text :=
        Option.some.inj ((Command.target_of_wanted hwanted).symm.trans htarget)
      have hfresh : fresh.regex ≠ some wanted := nofun
      have hchecked : checked conditions.relaxed (some wanted) = checked conditions (some wanted) :=
        rfl
      have hkept (hregex : (replay history).regex = some wanted) :
          ∃ made, Analysis.build conditions.relaxed wanted = .ok made := by
        obtain ⟨analysis, hcurrent, rfl⟩ := Option.map_eq_some_iff.1 hregex
        exact ⟨analysis, (faithful_replay history analysis hcurrent).build_relaxed conditions⟩
      rw [(faithful_replay history).isGiven_iff hwanted, faithful_fresh.isGiven_iff hwanted,
        faithful_fresh.isGiven_iff hwanted, hchecked]
      constructor
      · rintro ⟨hok, hregex | hmade⟩
        · exact Or.inr ⟨hregex, hok, Or.inr (hkept hregex)⟩
        · exact Or.inl ⟨hok, Or.inr hmade⟩
      · rintro (⟨hok, hpossible⟩ | ⟨hregex, hok, -⟩)
        · exact ⟨hok, Or.inr (hpossible.resolve_left hfresh)⟩
        · exact ⟨hok, Or.inl hregex⟩
  · intro hgiven
    rcases (replay history).obey_cases conditions command with ⟨rfl, -⟩ | ⟨hnone, -⟩ |
      ⟨refusal, hrefused⟩ | ⟨analysis, -, hregex, hafter, hcurrent⟩
    · cases htarget
    · cases hnone.symm.trans htarget
    · exact absurd (congrArg Prod.fst hrefused) (hgiven refusal)
    · rw [hafter]
      exact ⟨analysis, rfl, Option.some.inj (hregex.symm.trans htarget),
        hcurrent.imp_right Analysis.fits_of_build⟩

/-- A session that has analysed a regular expression with five states without a limit. -/
def outgrown : List (Conditions × Command) :=
  [({}, .analyse (some "(a|b)*abb"))]

/-- Automata that are kept are given although one of them is too large by then, and although they
would be refused from the start. -/
theorem outgrown_isGiven :
    ((replay outgrown).obey { maxStates := some 4 } (.analyse (some "(a|b)*abb"))).1.IsGiven ∧
      (((replay outgrown).obey { maxStates := some 4 } (.analyse (some "(a|b)*abb"))).2.current.map
        fun analysis => analysis.dfa.states.size) = some 5 ∧
      ¬ (fresh.obey { maxStates := some 4 } (.analyse (some "(a|b)*abb"))).1.IsGiven := by
  decide +kernel

theorem reuse_exact_outgrown :
    ((replay outgrown).obey { maxStates := some 4 } (.analyse (some "(a|b)*abb"))).1.IsGiven ∧
      ∃ analysis, ((replay outgrown).obey { maxStates := some 4 }
          (.analyse (some "(a|b)*abb"))).2.current = some analysis ∧
        analysis.regex = "(a|b)*abb" ∧
        ((replay outgrown).current = some analysis ∨ analysis.Fits { maxStates := some 4 }) := by
  obtain ⟨hgiven, hfits⟩ := reuse_exact outgrown { maxStates := some 4 }
    (.analyse (some "(a|b)*abb")) "(a|b)*abb" rfl
  have hanswer := hgiven.2 (Or.inr ⟨by decide +kernel, by decide +kernel⟩)
  exact ⟨hanswer, hfits hanswer⟩

end Session
end RegexAutomata
