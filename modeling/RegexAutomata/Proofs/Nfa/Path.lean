import Mathlib.Computability.Language
import RegexAutomata.Nfa.Basic

/-!
# Paths that spell words

A trail follows labelled edges and spells their labels, except that `epsilon` spells nothing.
Trails are defined for any relation of labelled edges: an automaton is one, and so is the part of
an automaton that belongs to one fragment.
-/

namespace RegexAutomata

section Trail

variable {α : Type} {edge other : α → String → α → Prop}

inductive Trail (edge : α → String → α → Prop) : α → List String → α → Prop where
  | nil (place : α) : Trail edge place [] place
  | silent {place next final : α} {word : List String} (hedge : edge place epsilon next)
      (htrail : Trail edge next word final) : Trail edge place word final
  | read {place next final : α} {symbol : String} {word : List String} (hsymbol : symbol ≠ epsilon)
      (hedge : edge place symbol next) (htrail : Trail edge next word final) :
      Trail edge place (symbol :: word) final

namespace Trail

variable {place middle final : α} {word left right : List String}

theorem append (hleft : Trail edge place left middle) (hright : Trail edge middle right final) :
    Trail edge place (left ++ right) final := by
  induction hleft with
  | nil => exact hright
  | silent hedge _ ih => exact silent hedge (ih hright)
  | read hsymbol hedge _ ih => exact read hsymbol hedge (ih hright)

/-- Between places where two relations have the same edges, and which no edge leaves, they have the
same trails. -/
theorem of_closed {inside : α → Prop}
    (hedge : ∀ source symbol target, inside source → edge source symbol target →
      other source symbol target ∧ inside target)
    (htrail : Trail edge place word final) (hplace : inside place) :
    Trail other place word final := by
  induction htrail with
  | nil => exact nil _
  | silent hstep _ ih =>
    obtain ⟨hother, hnext⟩ := hedge _ _ _ hplace hstep
    exact silent hother (ih hnext)
  | read hsymbol hstep _ ih =>
    obtain ⟨hother, hnext⟩ := hedge _ _ _ hplace hstep
    exact read hsymbol hother (ih hnext)

theorem mono
    (hedge : ∀ source symbol target, edge source symbol target → other source symbol target)
    (htrail : Trail edge place word final) : Trail other place word final := by
  induction htrail with
  | nil => exact nil _
  | silent hstep _ ih => exact silent (hedge _ _ _ hstep) ih
  | read hsymbol hstep _ ih => exact read hsymbol (hedge _ _ _ hstep) ih

theorem exists_edge (hplace : place ≠ final) (htrail : Trail edge place word final) :
    (∃ next, edge place epsilon next ∧ Trail edge next word final) ∨
      ∃ symbol next rest, symbol ≠ epsilon ∧ edge place symbol next ∧ word = symbol :: rest ∧
        Trail edge next rest final := by
  cases htrail with
  | nil => exact absurd rfl hplace
  | silent hedge hrest => exact Or.inl ⟨_, hedge, hrest⟩
  | read hsymbol hedge hrest => exact Or.inr ⟨_, _, _, hsymbol, hedge, rfl, hrest⟩

/-- From a place without edges only the empty word can be spelled. -/
theorem eq_nil_of_sink (hsink : ∀ symbol target, ¬ edge place symbol target)
    (htrail : Trail edge place word final) : word = [] := by
  cases htrail with
  | nil => rfl
  | silent hedge _ => exact absurd hedge (hsink _ _)
  | read _ hedge _ => exact absurd hedge (hsink _ _)

/-- A trail that starts inside a region and ends outside it leaves the region at `gate` at last.
Up to there it is a trail of the region's own edges, or of several such trails where the gate leads
back into the region; `rest` holds what may be spelled from the gate on. -/
theorem escape {inner : α → String → α → Prop} {inside exit : α → Prop} {gate : α}
    {rest : Language String}
    (hstep : ∀ source symbol target, inside source → edge source symbol target →
      (inner source symbol target ∧ inside target) ∨
        (source = gate ∧ symbol = epsilon ∧ exit target))
    (hout : ∀ target suffix, exit target → ¬ inside target → Trail edge target suffix final →
      suffix ∈ rest)
    (hback : ∀ target again suffix, exit target → inside target →
      Trail inner target again gate → suffix ∈ rest → again ++ suffix ∈ rest)
    (hfinal : ¬ inside final) (htrail : Trail edge place word final) (hplace : inside place) :
    ∃ own suffix, word = own ++ suffix ∧ Trail inner place own gate ∧ suffix ∈ rest := by
  induction htrail with
  | nil => exact absurd hplace hfinal
  | @silent source target _ suffix hedge htrail ih =>
    rcases hstep _ _ _ hplace hedge with ⟨hinner, htarget⟩ | ⟨rfl, -, hexit⟩
    · obtain ⟨own, tail, hword, howns, htail⟩ := ih hout hfinal htarget
      exact ⟨own, tail, hword, silent hinner howns, htail⟩
    · by_cases htarget : inside target
      · obtain ⟨own, tail, rfl, howns, htail⟩ := ih hout hfinal htarget
        exact ⟨[], own ++ tail, rfl, nil _, hback target own tail hexit htarget howns htail⟩
      · exact ⟨[], suffix, rfl, nil _, hout target suffix hexit htarget htrail⟩
  | @read source target _ symbol suffix hsymbol hedge htrail ih =>
    rcases hstep _ _ _ hplace hedge with ⟨hinner, htarget⟩ | ⟨-, hsilent, -⟩
    · obtain ⟨own, tail, rfl, howns, htail⟩ := ih hout hfinal htarget
      exact ⟨symbol :: own, tail, rfl, read hsymbol hinner howns, htail⟩
    · exact absurd hsilent hsymbol

end Trail

end Trail

namespace Nfa

def Edge (nfa : Nfa) (source : StateNumber) (symbol : String) (target : StateNumber) : Prop :=
  ∃ state, nfa.find? source = some state ∧ target ∈ state.targets symbol

abbrev Path (nfa : Nfa) : StateNumber → List String → StateNumber → Prop :=
  Trail nfa.Edge

end Nfa
end RegexAutomata
