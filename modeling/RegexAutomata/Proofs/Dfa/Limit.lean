import RegexAutomata.Proofs.Dfa.Determinization
import RegexAutomata.Proofs.Dfa.Direct
import RegexAutomata.Proofs.Exploration.Limit

/-!
# Constructions with a limit on the states

Both constructions make the same automaton with and without a limit, unless it has more states than
the limit allows; then they fail and say so.
-/

namespace RegexAutomata

open Exploration

namespace Dfa

theorem ofNfa_some {nfa : Nfa} {dfa : Dfa} (hmade : ofNfa nfa none = .ok dfa) (limit : Int) :
    ofNfa nfa (some limit) = within limit dfa.states.size dfa := by
  obtain ⟨symbols, hsymbols, hrest⟩ := Traversal.bind_eq_ok_iff.1 hmade
  obtain ⟨first, hfirst, hrest⟩ := Traversal.bind_eq_ok_iff.1 hrest
  obtain ⟨exploration, hrun, hresult⟩ := Traversal.bind_eq_ok_iff.1 hrest
  cases hresult
  rw [ofNfa, hsymbols, hfirst, size_states_ofExploration]
  simp only [bind, Except.bind, run_some limit hrun]
  exact within_bind (Nat.le_refl _) fun hroom => (within_of_le hroom _).symm

/-- With a limit nothing else is made than without one. -/
theorem ofNfa_unique {nfa : Nfa} {dfa other : Dfa} (hmade : ofNfa nfa none = .ok dfa)
    {limit : Option Int} (hlimited : ofNfa nfa limit = .ok other) : other = dfa := by
  cases limit with
  | none => exact Except.ok.inj (hlimited.symm.trans hmade)
  | some limit =>
    rw [ofNfa_some hmade] at hlimited
    exact (within_eq_ok_iff.1 hlimited).2.symm

end Dfa

namespace FollowTable

theorem direct_some {table : FollowTable} (hfirst : table.first ≠ [])
    {result : Dfa × List TraceStep} (hmade : table.direct none = .ok result) (limit : Int) :
    table.direct (some limit) = within limit result.1.states.size result := by
  rw [direct_eq_search hfirst] at hmade ⊢
  obtain ⟨exploration, hrun, hrest⟩ := Traversal.bind_eq_ok_iff.1 hmade
  obtain ⟨trace, htrace, hresult⟩ := Traversal.bind_eq_ok_iff.1 hrest
  cases hresult
  rw [Dfa.size_states_ofExploration, run_some limit hrun]
  refine within_bind (Nat.le_refl _) fun hroom => ?_
  rw [htrace, within_of_le hroom]
  rfl

theorem direct_unique {table : FollowTable} (hfirst : table.first ≠ [])
    {result other : Dfa × List TraceStep} (hmade : table.direct none = .ok result)
    {limit : Option Int} (hlimited : table.direct limit = .ok other) : other = result := by
  cases limit with
  | none => exact Except.ok.inj (hlimited.symm.trans hmade)
  | some limit =>
    rw [direct_some hfirst hmade] at hlimited
    exact (within_eq_ok_iff.1 hlimited).2.symm

end FollowTable

namespace Regex

open MarkedRegex FollowTable

/-- The direct construction from a tree of known nodes is the one from a table with first
positions. -/
theorem exists_table {regex : Regex} (hknown : regex.isKnown) :
    ∃ table : FollowTable, table.first ≠ [] ∧ ∀ limit, regex.direct limit = table.direct limit := by
  obtain ⟨marked, finish, hmarked, -, -, -⟩ := marked_eq hknown
  exact ⟨ofMarked (marked.ended finish), first_ne_nil _, direct_of_marked hmarked⟩

theorem direct_some {regex : Regex} (hknown : regex.isKnown) {result : Dfa × List TraceStep}
    (hmade : regex.direct none = .ok result) (limit : Int) :
    regex.direct (some limit) = within limit result.1.states.size result := by
  obtain ⟨table, hfirst, htable⟩ := exists_table hknown
  rw [htable] at hmade ⊢
  exact FollowTable.direct_some hfirst hmade limit

end Regex

/-- Without a limit the construction succeeds.  With a limit that its states exceed it fails for
this limit, and with any other limit it has the same result. -/
structure HonoursLimit {α : Type} (construct : Option Int → Except Failure α) (size : α → Nat)
    (result : α) : Prop where
  unlimited : construct none = .ok result
  exceeded : ∀ limit : Int,
    construct (some limit) = .error (.tooManyStates limit) ↔ limit < size result
  kept : ∀ limit : Int, size result ≤ limit → construct (some limit) = .ok result

/-- It is enough to know what each single limit does to the result without a limit. -/
theorem honoursLimit_of_within {α : Type} {construct : Option Int → Except Failure α}
    {size : α → Nat} {result : α} (hmade : construct none = .ok result)
    (hlimited : ∀ limit, construct (some limit) = within limit (size result) result) :
    HonoursLimit construct size result where
  unlimited := hmade
  exceeded limit := by
    rw [hlimited]
    by_cases hroom : (size result : Int) ≤ limit
    · rw [within_of_le hroom]
      exact iff_of_false (fun hnever => nomatch hnever) (Int.not_lt.2 hroom)
    · rw [within_of_not_le hroom]
      exact iff_of_true rfl (Int.not_le.1 hroom)
  kept limit hroom := by
    rw [hlimited, within_of_le hroom]

/-- Both constructions succeed without a limit.  With a limit, positive or not, they fail exactly if
the automaton has more states than that, and otherwise nothing is different, the log of the direct
construction included. -/
theorem limits_exact :
    (∀ nfa : Nfa, nfa.Intact → ∃ dfa, HonoursLimit (Dfa.ofNfa nfa) (·.states.size) dfa) ∧
      ∀ regex : Regex, regex.isKnown → ∃ dfa trace,
        HonoursLimit regex.direct (fun made => made.1.states.size) (dfa, trace) := by
  constructor
  · intro nfa hintact
    obtain ⟨dfa, hmade, -⟩ := Dfa.walk_ofNfa hintact
    exact ⟨dfa, honoursLimit_of_within hmade (Dfa.ofNfa_some hmade)⟩
  · intro regex hknown
    obtain ⟨dfa, trace, hmade, -⟩ := Regex.direct_acceptsWord hknown
    exact ⟨dfa, trace, honoursLimit_of_within hmade (Regex.direct_some hknown hmade)⟩

theorem limits_exact_circleNfa :
    Dfa.circleNfa.Intact ∧ (Regex.star (.char Regex.endMarker)).isKnown ∧
      (∃ dfa, HonoursLimit (Dfa.ofNfa Dfa.circleNfa) (·.states.size) dfa) ∧
      ∃ dfa trace, HonoursLimit (Regex.star (.char Regex.endMarker)).direct
        (fun made => made.1.states.size) (dfa, trace) :=
  have hintact : Dfa.circleNfa.Intact := Nfa.intact_of_targets (by decide) (by decide)
  ⟨hintact, rfl, limits_exact.1 _ hintact, limits_exact.2 _ rfl⟩

end RegexAutomata
