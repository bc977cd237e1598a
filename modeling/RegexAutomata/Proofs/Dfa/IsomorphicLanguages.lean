import RegexAutomata.Proofs.Dfa.Isomorphism

/-!
# Isomorphic automata are equivalent

The two comparisons go different ways.  The one for isomorphism follows the transitions and does not
look at the alphabets.  The one for equivalence follows the symbols of both alphabets and goes on
from the implicit rejecting state.  If the former finds that all pairs of states that meet are
alike, then each word leads to such a pair, or to two rejecting states, so that the latter has
nothing to find, whatever the alphabets are.
-/

namespace RegexAutomata.Dfa

variable {left right : Dfa}

/-- A word is read by one automaton if it is read by the other one. -/
theorem Matched.reached_eq_none (hmatched : Matched left right)
    (hempty : left.isEmpty = right.isEmpty) {word : List String}
    (hword : left.reached left.start word = none) : right.reached right.start word = none := by
  rw [Option.eq_none_iff_forall_ne_some]
  intro partner hpartner
  obtain ⟨index, hindex⟩ := hmatched.symm.exists_reached hempty.symm hpartner
  rw [hword] at hindex
  cases hindex

/-- Every word leads to states that accept or do not accept alike. -/
theorem Matched.agree (hmatched : Matched left right) (hempty : left.isEmpty = right.isEmpty)
    (word : List String) :
    Agree left right (pairReached left right (left.start, right.start) word) := by
  cases hword : left.reached left.start word with
  | none =>
    have hother := hmatched.reached_eq_none hempty hword
    rw [Agree, pairReached, hword, hother]
    rfl
  | some index =>
    obtain ⟨partner, hpartner⟩ := hmatched.exists_reached hempty hword
    rw [Agree, pairReached, hword, hpartner]
    exact (hmatched.alike (index, partner) ⟨word, hword, hpartner⟩).verdict

/-- The comparison for equivalence succeeds if no word tells the automata apart. -/
theorem Closed.isEquivalent_of_agree (hleft : left.Closed) (hright : right.Closed)
    (hagree : ∀ word, Agree left right (pairReached left right (left.start, right.start) word)) :
    left.isEquivalent right = .ok true := by
  have hhas : ∀ word,
      HasPair left right (pairReached left right (left.start, right.start) word) :=
    fun word => ⟨hleft.has_reached word, hright.has_reached word⟩
  rcases agreeFrom_spec hhas Comparing.init (Nat.add_le_add_right (Nat.le_succ _) 1) with
    ⟨htrue, -⟩ | ⟨-, word, -, hapart⟩
  · exact htrue
  · exact absurd (hagree word) hapart

/-- Automata whose reachable parts differ in their numbering only are equivalent, in both directions
and with any alphabets, also such that leave out symbols of the transitions. -/
theorem isEquivalent_of_isIsomorphic (left right : Dfa) (hleft : left.Closed)
    (hright : right.Closed) (hsame : left.isIsomorphic right = .ok true) :
    left.isEquivalent right = .ok true ∧ right.isEquivalent left = .ok true := by
  have hisomorphic : Isomorphic left right := by
    rcases isIsomorphic_spec hleft hright with ⟨-, hyes⟩ | ⟨hno, -⟩
    · exact hyes
    · rw [hno] at hsame
      cases hsame
  obtain ⟨hempty, hmatched⟩ := (isomorphic_iff hleft hright).1 hisomorphic
  constructor
  · exact hleft.isEquivalent_of_agree hright (hmatched.agree hempty)
  · exact hright.isEquivalent_of_agree hleft (hmatched.symm.agree hempty.symm)

theorem isEquivalent_of_isIsomorphic_hidden :
    Closed { redundantDfa with alphabet := [] } ∧ Closed { renumberedDfa with alphabet := ["c"] } ∧
      isIsomorphic { redundantDfa with alphabet := [] } { renumberedDfa with alphabet := ["c"] } =
        .ok true ∧
      isEquivalent { redundantDfa with alphabet := [] } { renumberedDfa with alphabet := ["c"] } =
        .ok true ∧
      isEquivalent { renumberedDfa with alphabet := ["c"] } { redundantDfa with alphabet := [] } =
        .ok true :=
  have hleft : Closed { redundantDfa with alphabet := [] } :=
    ⟨closed_redundantDfa.start, closed_redundantDfa.target, closed_redundantDfa.nodup⟩
  have hright : Closed { renumberedDfa with alphabet := ["c"] } :=
    ⟨closed_renumberedDfa.start, closed_renumberedDfa.target, closed_renumberedDfa.nodup⟩
  ⟨hleft, hright, rfl, isEquivalent_of_isIsomorphic _ _ hleft hright rfl⟩

end RegexAutomata.Dfa
