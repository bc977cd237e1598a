import RegexAutomata.Proofs.Regex.UnknownNodes
import RegexAutomata.Proofs.Service.Reuse

/-!
# Which tasks succeed

Unless there is an outage, a task succeeds if its input is in order, and is rejected for its input
if not.  Everything that stands between the two, from the tree to the reports, works for whatever
can be read.
-/

namespace RegexAutomata

namespace Regex

/-- There is a report on every tree that is read from a text. -/
theorem exists_report_eq_ok {text : String} {tree : Regex} (hparse : parse text = .ok tree) :
    ∃ data, report text tree = .ok data := by
  obtain ⟨_, hpicture⟩ := exists_digraph_eq_ok (derives_of_parse hparse).isKnown
  exact ⟨_, by rw [report, hpicture]; rfl⟩

end Regex

namespace Session

variable {session : Session} {conditions : Conditions} {regex : Option String} {task : Task}
  {text : String}

/-- A regular expression passes if it is a text within the limit on its length. -/
theorem checked_eq_ok_iff :
    checked conditions regex = .ok text ↔
      regex = some text ∧
        ∀ limit, conditions.maxLength = some limit → (text.length : Int) ≤ limit := by
  cases regex with
  | none => simp [checked]
  | some given =>
    cases hlimit : conditions.maxLength with
    | none => simp [checked, hlimit]
    | some limit =>
      simp only [checked, hlimit, Option.some.injEq]
      by_cases hlong : limit < given.length
      · rw [if_pos hlong]
        refine iff_of_false (fun hnever => by cases hnever) ?_
        rintro ⟨rfl, hshort⟩
        exact absurd (hshort limit rfl) (by omega)
      · rw [if_neg hlong, Except.ok.injEq]
        refine (and_iff_left_of_imp ?_).symm
        rintro rfl _ rfl
        omega

theorem rejected_of_checked {refusal : Refusal}
    (hchecked : checked conditions regex = .error refusal) :
    ∃ diagnostic, refusal = .rejected diagnostic := by
  unfold checked at hchecked
  split at hchecked
  · cases hchecked
    exact ⟨_, rfl⟩
  · cases hchecked
  · split at hchecked <;> cases hchecked
    exact ⟨_, rfl⟩

/-- Unless there is an outage, there is no analysis only if the input is at fault. -/
theorem rejected_of_analyse {refusal : Refusal} {after : Session}
    (hworks : conditions.outage = false)
    (hanalyse : session.analyse conditions regex = (.error refusal, after)) :
    ∃ diagnostic, refusal = .rejected diagnostic := by
  rcases session.analyse_cases conditions regex with ⟨_, hchecked, hresult⟩ |
    ⟨_, -, ⟨_, -, -, hresult⟩ | ⟨-, ⟨_, -, hresult⟩ | ⟨_, hbuild, hresult⟩⟩⟩
  · cases hresult.symm.trans hanalyse
    exact rejected_of_checked hchecked
  · cases hresult.symm.trans hanalyse
  · cases hresult.symm.trans hanalyse
  · cases hresult.symm.trans hanalyse
    exact Analysis.rejected_of_build hworks hbuild

/-- The input for a task is in order: the regular expression is not too long and can be read, the
automata keep to the limit if they are asked for, and a text to run them on is not missing. -/
def Feasible (conditions : Conditions) (regex : Option String) (task : Task) : Prop :=
  ∃ text made, checked conditions regex = .ok text ∧ Analysis.build {} text = .ok made ∧
    (task ≠ .tree → made.Fits conditions) ∧ task ≠ .input none

/-- There is a result if the input is in order, and otherwise the input is rejected. -/
structure Judges (result : Except Refusal Json) (inOrder : Prop) : Prop where
  good : inOrder → ∃ data, result = .ok data
  bad : ¬ inOrder → ∃ diagnostic, result = .error (.rejected diagnostic)

def Within (session : Session) (conditions : Conditions) : Prop :=
  ∀ kept, session.current = some kept → kept.Fits conditions

theorem within_fresh (conditions : Conditions) : fresh.Within conditions :=
  nofun

/-- As long as the conditions stay the same, no command brings anything over the limit. -/
theorem Within.obey (hwithin : session.Within conditions) (command : Command) :
    (session.obey conditions command).2.Within conditions := by
  rcases session.obey_cases conditions command with ⟨-, hequal⟩ | ⟨-, hsame⟩ | ⟨refusal, hrefused⟩ |
    ⟨analysis, -, -, hafter, hcurrent⟩
  · rw [hequal]
    exact within_fresh conditions
  · rwa [hsame]
  · rwa [hrefused]
  · rw [hafter]
    rintro kept hkept
    obtain rfl := Option.some.inj hkept
    exact hcurrent.elim (hwithin analysis) Analysis.fits_of_build

/-- The report on a tree is refused with the regular expression, or for the text that it is, or it
is given. -/
theorem treeReport_cases (conditions : Conditions) (regex : Option String) :
    (∃ refusal, checked conditions regex = .error refusal ∧
        treeReport conditions regex = .error refusal) ∨
      ∃ text, checked conditions regex = .ok text ∧
        ((∃ fault, Regex.parse text = .error fault ∧
            treeReport conditions regex = .error (.rejected fault.diagnostic)) ∨
          ∃ tree data, Regex.parse text = .ok tree ∧
            treeReport conditions regex = .ok data) := by
  cases hchecked : checked conditions regex with
  | error refusal => exact Or.inl ⟨refusal, rfl, by rw [treeReport, hchecked]; rfl⟩
  | ok text =>
    refine Or.inr ⟨text, rfl, ?_⟩
    cases hparse : Regex.parse text with
    | error fault =>
      refine Or.inl ⟨fault, rfl, ?_⟩
      simp [treeReport, hchecked, hparse, bind, Except.bind, Except.mapError, Refusal.ofFailure]
    | ok tree =>
      obtain ⟨data, hdata⟩ := Regex.exists_report_eq_ok hparse
      refine Or.inr ⟨tree, data, rfl, ?_⟩
      simp only [treeReport, Traversal.bind_eq_ok_iff, Traversal.mapError_eq_ok_iff]
      exact ⟨text, hchecked, tree, hparse, hdata⟩

theorem judges_treeReport :
    Judges (treeReport conditions regex) (Feasible conditions regex .tree) := by
  rcases treeReport_cases conditions regex with ⟨refusal, hchecked, hrefused⟩ |
    ⟨text, hchecked, ⟨fault, hparse, hrejected⟩ | ⟨tree, data, hparse, hdata⟩⟩
  · obtain ⟨diagnostic, rfl⟩ := rejected_of_checked hchecked
    refine ⟨?_, fun _ => ⟨diagnostic, hrefused⟩⟩
    rintro ⟨text, made, hother, -⟩
    cases hother.symm.trans hchecked
  · refine ⟨?_, fun _ => ⟨fault.diagnostic, hrejected⟩⟩
    rintro ⟨other, made, hother, hmade, -⟩
    obtain rfl := Except.ok.inj (hother.symm.trans hchecked)
    obtain ⟨rfl, hread, -⟩ := Analysis.build_eq_ok hmade
    cases hread.symm.trans hparse
  · obtain ⟨made, hmade⟩ := Analysis.exists_build_eq_ok hparse
    exact ⟨fun _ => ⟨data, hdata⟩, fun hnever =>
      absurd ⟨text, made, hchecked, hmade, fun hother => absurd rfl hother, nofun⟩ hnever⟩

/-- With what is kept in order, there is an analysis exactly if the input for a report on one is. -/
theorem feasible_iff (hsession : session.Faithful) (hwithin : session.Within conditions)
    (hworks : conditions.outage = false) {report : Analysis → Except Failure Json}
    (htask : task.report? = some report) :
    Feasible conditions regex task ↔
      ∃ analysis after, session.analyse conditions regex = (.ok analysis, after) := by
  have htree : task ≠ .tree := by
    rintro rfl
    cases htask
  have hinput : task ≠ .input none := by
    rintro rfl
    cases htask
  constructor
  · rintro ⟨text, made, hchecked, hmade, hfits, -⟩
    obtain rfl := checked_eq_ok hchecked
    exact exists_analyse_eq_ok_iff.2 ⟨hchecked,
      Or.inr ⟨made, (Analysis.build_eq_ok_iff hmade).2 ⟨hworks, hfits htree, rfl⟩⟩⟩
  · rintro ⟨analysis, after, hanalyse⟩
    obtain ⟨hchecked, -, hkept | ⟨-, hbuild⟩⟩ := analyse_eq_ok_iff.1 hanalyse
    · obtain ⟨_, hbuild⟩ := hsession analysis hkept
      exact ⟨_, analysis, hchecked, Analysis.build_unlimited hbuild,
        fun _ => hwithin analysis hkept, hinput⟩
    · exact ⟨_, analysis, hchecked, Analysis.build_unlimited hbuild,
        fun _ => Analysis.fits_of_build hbuild, hinput⟩

/-- An analysis that is kept fits the conditions as well as a new one does. -/
theorem judges_reportOn (hsession : session.Faithful) (hwithin : session.Within conditions)
    (hworks : conditions.outage = false) {report : Analysis → Except Failure Json}
    (htask : task.report? = some report) :
    Judges (session.reportOn conditions regex report).1 (Feasible conditions regex task) := by
  rw [feasible_iff hsession hwithin hworks htask]
  constructor
  · rintro ⟨analysis, after, hanalyse⟩
    obtain ⟨⟨_, hbuild⟩, -⟩ := (hsession.analyse conditions regex).2 analysis
      (congrArg Prod.fst hanalyse)
    obtain ⟨data, hdata⟩ := (Analysis.sound_of_build hbuild).exists_report htask
    exact ⟨data, congrArg Prod.fst (reportOn_eq_ok_iff.2 ⟨analysis, hanalyse, hdata⟩)⟩
  · intro hnever
    obtain ⟨result, after, hanalyse⟩ : ∃ result after,
      session.analyse conditions regex = (result, after) := ⟨_, _, rfl⟩
    cases result with
    | ok analysis => exact absurd ⟨analysis, after, hanalyse⟩ hnever
    | error refusal =>
      obtain ⟨diagnostic, rfl⟩ := rejected_of_analyse hworks hanalyse
      exact ⟨diagnostic, by rw [reportOn, hanalyse]; rfl⟩

/-- Unless there is an outage, a task succeeds or fails for its input. -/
theorem judges_perform (hsession : session.Faithful) (hwithin : session.Within conditions)
    (hworks : conditions.outage = false) (regex : Option String) (task : Task) :
    Judges (session.perform conditions regex task).1 (Feasible conditions regex task) := by
  cases htask : task.report? with
  | some report =>
    rw [perform_of_report htask]
    exact judges_reportOn hsession hwithin hworks htask
  | none =>
    cases task with
    | tree => exact judges_treeReport
    | input given =>
      cases given with
      | none => exact ⟨fun ⟨_, _, _, _, _, hnever⟩ => absurd rfl hnever, fun _ => ⟨_, rfl⟩⟩
      | some given => cases htask
    | _ => cases htask

end Session
end RegexAutomata
