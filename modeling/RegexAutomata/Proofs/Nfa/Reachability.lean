import Mathlib.Data.Finset.Card
import Mathlib.Logic.Relation
import RegexAutomata.Nfa.Reach
import RegexAutomata.Proofs.Collection.Ascending
import RegexAutomata.Proofs.Nfa.Path

/-!
# The search reaches what can be reached

`Nfa.reach` returns the states that can be reached along the chosen edges, each once and in
ascending order, or fails because one of them does not exist.  Its fuel never runs out: what is
taken from the pending states exists, is taken only once, and has one of two numbers of a state.
So the same search without any fuel comes to an end too.
-/

namespace RegexAutomata

namespace Nfa

def Exists (nfa : Nfa) (id : StateNumber) : Prop :=
  (nfa.find? id).isSome

/-- A chosen edge leads from one state to another. -/
def Leads (nfa : Nfa) (next : State → List StateNumber) (source target : StateNumber) : Prop :=
  ∃ state, nfa.find? source = some state ∧ target ∈ next state

abbrev Reaches (nfa : Nfa) (next : State → List StateNumber) : StateNumber → StateNumber → Prop :=
  Relation.ReflTransGen (nfa.Leads next)

theorem exists_iff {nfa : Nfa} {id : Int} :
    nfa.Exists id ↔ -(nfa.states.size : Int) ≤ id ∧ id < nfa.states.size := by
  rw [← Place.isSome_ofNumber?_iff, Exists, find?]
  cases hplace : Place.ofNumber? nfa.states.size id with
  | none => simp
  | some place => simp [Place.lt_of_ofNumber?_eq_some hplace]

def numbers (nfa : Nfa) : Finset Int :=
  (Finset.range (2 * nfa.states.size)).image fun (place : Nat) =>
    (place : Int) - nfa.states.size

theorem mem_numbers {nfa : Nfa} {id : Int} : id ∈ nfa.numbers ↔ nfa.Exists id := by
  simp only [exists_iff, numbers, Finset.mem_image, Finset.mem_range]
  constructor
  · rintro ⟨place, hplace, rfl⟩
    omega
  · rintro ⟨hleast, hgreatest⟩
    exact ⟨(id + nfa.states.size).toNat, by omega, by omega⟩

theorem card_numbers (nfa : Nfa) : nfa.numbers.card = 2 * nfa.states.size := by
  rw [numbers, Finset.card_image_of_injective, Finset.card_range]
  intro left right hequal
  dsimp only at hequal
  omega

/-- Where a search stands that follows the chosen edges from `ids`: what has been visited is
reachable, and what is no longer pending exists and has its targets visited. -/
structure Visiting (nfa : Nfa) (next : State → List StateNumber)
    (ids pending visited : List StateNumber) : Prop where
  ascending : visited.Pairwise (· < ·)
  pending_nodup : pending.Nodup
  pending_subset : pending ⊆ visited
  start : ids ⊆ visited
  sound : ∀ id ∈ visited, ∃ first ∈ ids, nfa.Reaches next first id
  expanded : ∀ id ∈ visited, id ∉ pending →
    ∃ state, nfa.find? id = some state ∧ next state ⊆ visited

namespace Visiting

variable {nfa : Nfa} {next : State → List StateNumber} {ids pending visited : List StateNumber}

theorem init : nfa.Visiting next ids (Ascending.ofList ids) (Ascending.ofList ids) where
  ascending := Ascending.pairwise_ofList ids
  pending_nodup := Ascending.nodup_of_pairwise (Ascending.pairwise_ofList ids)
  pending_subset := List.Subset.refl _
  start := fun _ hid => Ascending.mem_ofList.2 hid
  sound := fun id hid => ⟨id, Ascending.mem_ofList.1 hid, .refl⟩
  expanded := fun _ hvisited hpending => absurd hvisited hpending

/-- The search may go on with any state that is pending: its new targets become pending and visited
at once. -/
theorem step {id : StateNumber} {state : State} (hnext : (next state).Nodup)
    (hstate : nfa.find? id = some state)
    (hvisiting : nfa.Visiting next ids (id :: pending) visited) :
    nfa.Visiting next ids ((next state).filter (fun target => target ∉ visited) ++ pending)
      (Ascending.union ((next state).filter fun target => target ∉ visited) visited) := by
  have hparts := List.nodup_cons.1 hvisiting.pending_nodup
  have hid : id ∈ visited := hvisiting.pending_subset List.mem_cons_self
  refine ⟨Ascending.pairwise_union hvisiting.ascending, ?_, ?_, ?_, ?_, ?_⟩
  · apply List.Nodup.append (hnext.filter _) hparts.2
    intro target hfresh hpending
    have hnew : target ∉ visited := by simpa using (List.mem_filter.1 hfresh).2
    exact hnew (hvisiting.pending_subset (List.mem_cons_of_mem _ hpending))
  · intro target htarget
    rw [Ascending.mem_union]
    rcases List.mem_append.1 htarget with hfresh | hpending
    · exact Or.inl hfresh
    · exact Or.inr (hvisiting.pending_subset (List.mem_cons_of_mem _ hpending))
  · exact fun first hfirst => Ascending.mem_union.2 (Or.inr (hvisiting.start hfirst))
  · intro target htarget
    rcases Ascending.mem_union.1 htarget with hfresh | hvisited
    · obtain ⟨first, hfirst, hreaches⟩ := hvisiting.sound id hid
      exact ⟨first, hfirst, hreaches.tail ⟨state, hstate, (List.mem_filter.1 hfresh).1⟩⟩
    · exact hvisiting.sound target hvisited
  · intro target htarget hdone
    rw [List.mem_append, not_or] at hdone
    have hvisited : target ∈ visited :=
      (Ascending.mem_union.1 htarget).resolve_left hdone.1
    by_cases hsame : target = id
    · refine ⟨state, hsame ▸ hstate, fun other hother => Ascending.mem_union.2 ?_⟩
      by_cases hknown : other ∈ visited
      · exact Or.inr hknown
      · exact Or.inl (List.mem_filter.2 ⟨hother, by simpa using hknown⟩)
    · have hold : target ∉ id :: pending := by
        rw [List.mem_cons, not_or]
        exact ⟨hsame, hdone.2⟩
      obtain ⟨found, hfound, hsubset⟩ := hvisiting.expanded target hvisited hold
      exact ⟨found, hfound, fun other hother =>
        Ascending.mem_union.2 (Or.inr (hsubset hother))⟩

/-- All but the pending numbers exist, and so there are at most two for each state. -/
theorem length_visited_le (hvisiting : nfa.Visiting next ids pending visited) :
    visited.length ≤ pending.length + 2 * nfa.states.size := by
  have hsubset : visited.toFinset ⊆ pending.toFinset ∪ nfa.numbers := by
    intro id hid
    rw [Finset.mem_union, List.mem_toFinset, mem_numbers]
    by_cases hpending : id ∈ pending
    · exact Or.inl hpending
    · obtain ⟨state, hstate, -⟩ := hvisiting.expanded id (List.mem_toFinset.1 hid) hpending
      exact Or.inr (by rw [Exists, hstate, Option.isSome_some])
  calc visited.length
      = visited.toFinset.card :=
        (List.toFinset_card_of_nodup (Ascending.nodup_of_pairwise hvisiting.ascending)).symm
    _ ≤ (pending.toFinset ∪ nfa.numbers).card := Finset.card_le_card hsubset
    _ ≤ pending.toFinset.card + nfa.numbers.card := Finset.card_union_le _ _
    _ ≤ pending.length + 2 * nfa.states.size := by
        rw [card_numbers]
        exact Nat.add_le_add_right (List.toFinset_card_le _) _

/-- When nothing is pending any more, exactly what can be reached has been visited. -/
theorem mem_visited_iff (hvisiting : nfa.Visiting next ids [] visited) {id : StateNumber} :
    id ∈ visited ↔ ∃ first ∈ ids, nfa.Reaches next first id := by
  refine ⟨hvisiting.sound id, ?_⟩
  rintro ⟨first, hfirst, hreaches⟩
  induction hreaches with
  | refl => exact hvisiting.start hfirst
  | tail _ hleads ih =>
    obtain ⟨state, hstate, htarget⟩ := hleads
    obtain ⟨found, hfound, hsubset⟩ := hvisiting.expanded _ ih List.not_mem_nil
    obtain rfl : state = found := Option.some.inj (hstate.symm.trans hfound)
    exact hsubset htarget

end Visiting

/-- Without regard to fuel, a search comes to the point where nothing is pending. -/
inductive Settles (next : StateNumber → Except Failure (List StateNumber)) :
    List StateNumber → List StateNumber → List StateNumber → Prop where
  | done (visited : List StateNumber) : Settles next [] visited visited
  | visit {id : StateNumber} {pending visited targets reached : List StateNumber}
      (hnext : next id = .ok targets)
      (hrest : Settles next (targets.filter (fun target => target ∉ visited) ++ pending)
        (Ascending.union (targets.filter fun target => target ∉ visited) visited) reached) :
      Settles next (id :: pending) visited reached

/-- The search from given states comes to an end, and `reach` returns what it has visited then. -/
def SearchSettles (nfa : Nfa) (next : State → List StateNumber) (ids : List StateNumber) : Prop :=
  ∃ reached, nfa.reach next ids = .ok reached ∧
    Settles (fun id => do return next (← nfa.state? id)) (Ascending.ofList ids)
      (Ascending.ofList ids) reached

variable {nfa : Nfa} {next : State → List StateNumber}

/-- A search with enough fuel ends with nothing pending, or at a state that does not exist. -/
theorem reachFrom_spec (hnext : ∀ state, (next state).Nodup) {fuel : Nat}
    {ids pending visited : List StateNumber}
    (hvisiting : nfa.Visiting next ids pending visited)
    (hfuel : pending.length + 2 * nfa.states.size < fuel + visited.length) :
    (∃ reached, reachFrom (fun id => do return next (← nfa.state? id)) fuel pending visited =
        .ok reached ∧ Settles (fun id => do return next (← nfa.state? id)) pending visited reached ∧
        nfa.Visiting next ids [] reached) ∨
      (reachFrom (fun id => do return next (← nfa.state? id)) fuel pending visited =
        .error .noSuchState ∧
        ∃ first ∈ ids, ∃ id, nfa.Reaches next first id ∧ ¬ nfa.Exists id) := by
  induction fuel generalizing pending visited with
  | zero =>
    have hlength := hvisiting.length_visited_le
    omega
  | succ fuel ih =>
    cases pending with
    | nil => exact Or.inl ⟨visited, rfl, .done visited, hvisiting⟩
    | cons id pending =>
      have hid := hvisiting.sound id (hvisiting.pending_subset List.mem_cons_self)
      cases hstate : nfa.find? id with
      | none =>
        obtain ⟨first, hfirst, hreaches⟩ := hid
        refine Or.inr ⟨?_, first, hfirst, id, hreaches, by simp [Exists, hstate]⟩
        simp [reachFrom, state?, hstate, bind, Except.bind]
      | some state =>
        have hfresh : ((next state).filter fun target => target ∉ visited).Nodup :=
          (hnext state).filter _
        have hlength := Ascending.length_union hfresh
          (fun target htarget => by simpa using (List.mem_filter.1 htarget).2)
        have hcontinue := ih (hvisiting.step (hnext state) hstate) (by
          rw [hlength, List.length_append]
          rw [List.length_cons] at hfuel
          omega)
        have htargets : (do return next (← nfa.state? id) : Except Failure (List StateNumber)) =
            .ok (next state) := by
          rw [state?_eq_ok_iff.2 hstate]
          rfl
        rw [reachFrom, htargets]
        rcases hcontinue with ⟨reached, hok, hsettles, hdone⟩ | hfails
        · exact Or.inl ⟨reached, hok, .visit htargets hsettles, hdone⟩
        · exact Or.inr hfails

theorem reach_visits (hnext : ∀ state, (next state).Nodup) (ids : List StateNumber) :
    (∃ reached, nfa.reach next ids = .ok reached ∧
        Settles (fun id => do return next (← nfa.state? id)) (Ascending.ofList ids)
          (Ascending.ofList ids) reached ∧ nfa.Visiting next ids [] reached) ∨
      (nfa.reach next ids = .error .noSuchState ∧
        ∃ first ∈ ids, ∃ id, nfa.Reaches next first id ∧ ¬ nfa.Exists id) :=
  reachFrom_spec hnext Visiting.init (by omega)

/-- What can be reached is returned in ascending order, unless some of it does not exist. -/
theorem reach_spec (hnext : ∀ state, (next state).Nodup) (ids : List StateNumber) :
    (∃ reached, nfa.reach next ids = .ok reached ∧ reached.Pairwise (· < ·) ∧
        (∀ id, id ∈ reached ↔ ∃ first ∈ ids, nfa.Reaches next first id) ∧
        ∀ id ∈ reached, nfa.Exists id) ∨
      (nfa.reach next ids = .error .noSuchState ∧
        ∃ first ∈ ids, ∃ id, nfa.Reaches next first id ∧ ¬ nfa.Exists id) := by
  rcases reach_visits hnext ids with ⟨reached, hok, -, hvisiting⟩ | hfails
  · refine Or.inl ⟨reached, hok, hvisiting.ascending, fun id => hvisiting.mem_visited_iff,
      fun id hid => ?_⟩
    obtain ⟨state, hstate, -⟩ := hvisiting.expanded id hid List.not_mem_nil
    simp [Exists, hstate]
  · exact Or.inr hfails

/-- A search comes to an end if whatever can be reached exists. -/
theorem searchSettles (hnext : ∀ state, (next state).Nodup) {ids : List StateNumber}
    (hexists : ∀ first ∈ ids, ∀ id, nfa.Reaches next first id → nfa.Exists id) :
    nfa.SearchSettles next ids := by
  rcases reach_visits hnext ids with ⟨reached, hok, hsettles, -⟩ |
    ⟨-, first, hfirst, id, hreaches, habsent⟩
  · exact ⟨reached, hok, hsettles⟩
  · exact absurd (hexists first hfirst id hreaches) habsent

theorem reach_of_exists (hnext : ∀ state, (next state).Nodup) {ids : List StateNumber}
    (hexists : ∀ first ∈ ids, ∀ id, nfa.Reaches next first id → nfa.Exists id) :
    ∃ reached, nfa.reach next ids = .ok reached ∧ reached.Pairwise (· < ·) ∧
      ∀ id, id ∈ reached ↔ ∃ first ∈ ids, nfa.Reaches next first id := by
  rcases reach_spec hnext ids with ⟨reached, hok, hascending, hmem, -⟩ |
    ⟨-, first, hfirst, id, hreaches, habsent⟩
  · exact ⟨reached, hok, hascending, hmem⟩
  · exact absurd (hexists first hfirst id hreaches) habsent

end Nfa
end RegexAutomata
