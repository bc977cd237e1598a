import RegexAutomata.Proofs.Nfa.Reading

/-!
# Closures under silent moves

The closure of some states is the set of all states to which silent moves lead from one of them, and
it fails exactly if one of those does not exist.  All laws of closures follow from this: nothing but
the members of the given list counts, a closure is its own closure, and the closure of two lists
together is the union of theirs.
-/

namespace RegexAutomata.Nfa

/-- Silent moves, any number of them, lead to this state from one of the given ones. -/
def SilentlyReached (nfa : Nfa) (ids : List StateNumber) (id : StateNumber) : Prop :=
  ∃ first ∈ ids, Relation.ReflTransGen (nfa.Edge · epsilon ·) first id

/-- Every edge leads to a state that exists, also from states that cannot be reached. -/
def WellFormed (nfa : Nfa) : Prop :=
  ∀ source symbol target, nfa.Edge source symbol target → nfa.Exists target

variable {nfa : Nfa} {ids left right closed closedLeft closedRight : List StateNumber}
  {id : StateNumber}

section Reached

theorem silentlyReached_of_mem (hid : id ∈ ids) : nfa.SilentlyReached ids id :=
  ⟨id, hid, .refl⟩

theorem silentlyReached_append :
    nfa.SilentlyReached (left ++ right) id ↔
      nfa.SilentlyReached left id ∨ nfa.SilentlyReached right id := by
  simp only [SilentlyReached, List.mem_append, or_and_right, exists_or]

theorem SilentlyReached.mono (hsubset : left ⊆ right) (hreached : nfa.SilentlyReached left id) :
    nfa.SilentlyReached right id := by
  obtain ⟨first, hfirst, hmoves⟩ := hreached
  exact ⟨first, hsubset hfirst, hmoves⟩

/-- Going on from what has been reached reaches nothing new. -/
theorem silentlyReached_of_reached (hclosed : ∀ id, id ∈ closed ↔ nfa.SilentlyReached ids id) :
    nfa.SilentlyReached closed id ↔ nfa.SilentlyReached ids id := by
  constructor
  · rintro ⟨middle, hmiddle, hmoves⟩
    obtain ⟨first, hfirst, hbefore⟩ := (hclosed middle).1 hmiddle
    exact ⟨first, hfirst, hbefore.trans hmoves⟩
  · intro hreached
    exact silentlyReached_of_mem ((hclosed id).2 hreached)

/-- In a well-formed automaton silent moves stay among the states that exist. -/
theorem SilentlyReached.exists (hformed : nfa.WellFormed) (hids : ∀ first ∈ ids, nfa.Exists first)
    (hreached : nfa.SilentlyReached ids id) : nfa.Exists id := by
  obtain ⟨first, hfirst, hmoves⟩ := hreached
  cases hmoves with
  | refl => exact hids _ hfirst
  | tail _ hedge => exact hformed _ _ _ hedge

end Reached

/-- The closure is the set of all states that silent moves reach, or one of these does not exist. -/
theorem closure_cases (nfa : Nfa) (ids : List StateNumber) :
    (∃ closed, nfa.closure ids = .ok closed ∧ closed.Pairwise (· < ·) ∧
        (∀ id, id ∈ closed ↔ nfa.SilentlyReached ids id) ∧ ∀ id ∈ closed, nfa.Exists id) ∨
      (nfa.closure ids = .error .noSuchState ∧
        ∃ id, nfa.SilentlyReached ids id ∧ ¬ nfa.Exists id) := by
  have hnodup : ∀ state : State, (state.targets epsilon).Nodup := fun state =>
    Ascending.nodup_of_pairwise (state.ascending_of_symbol epsilon)
  rcases @reach_spec nfa _ hnodup ids with hfound | ⟨hfails, first, hfirst, id, hmoves, habsent⟩
  · exact Or.inl hfound
  · exact Or.inr ⟨hfails, id, ⟨first, hfirst, hmoves⟩, habsent⟩

/-- A closure is the set of all states that silent moves lead to, and it is there only if all of
them exist. -/
theorem closure_eq_ok_iff :
    nfa.closure ids = .ok closed ↔ closed.Pairwise (· < ·) ∧
      (∀ id, id ∈ closed ↔ nfa.SilentlyReached ids id) ∧
      ∀ id, nfa.SilentlyReached ids id → nfa.Exists id := by
  rcases closure_cases nfa ids with ⟨found, hfound, hascending, hmem, hexists⟩ |
    ⟨hfails, id, hreached, habsent⟩
  · rw [hfound, Except.ok.injEq]
    constructor
    · rintro rfl
      exact ⟨hascending, hmem, fun id hreached => hexists id ((hmem id).2 hreached)⟩
    · rintro ⟨hordered, hmembers, -⟩
      exact hascending.eq_of_mem_iff hordered fun id => (hmem id).trans (hmembers id).symm
  · rw [hfails]
    refine iff_of_false (fun hnever => nomatch hnever) ?_
    rintro ⟨-, -, hexists⟩
    exact habsent (hexists id hreached)

theorem closure_eq_error_iff :
    nfa.closure ids = .error .noSuchState ↔ ∃ id, nfa.SilentlyReached ids id ∧ ¬ nfa.Exists id := by
  rcases closure_cases nfa ids with ⟨found, hfound, -, hmem, hexists⟩ | ⟨hfails, hstray⟩
  · rw [hfound]
    refine iff_of_false (fun hnever => nomatch hnever) ?_
    rintro ⟨id, hreached, habsent⟩
    exact habsent (hexists id ((hmem id).2 hreached))
  · exact iff_of_true hfails hstray

section Laws

theorem closure_closure (hclosed : nfa.closure ids = .ok closed) :
    nfa.closure closed = .ok closed := by
  obtain ⟨hascending, hmem, hexists⟩ := closure_eq_ok_iff.1 hclosed
  have hsame : ∀ id, nfa.SilentlyReached closed id ↔ nfa.SilentlyReached ids id := fun id =>
    silentlyReached_of_reached hmem
  simp only [closure_eq_ok_iff, hsame]
  exact ⟨hascending, hmem, hexists⟩

theorem closure_mono (hleft : nfa.closure left = .ok closedLeft)
    (hright : nfa.closure right = .ok closedRight) (hsubset : left ⊆ right) :
    closedLeft ⊆ closedRight := by
  intro id hid
  have hreached := ((closure_eq_ok_iff.1 hleft).2.1 id).1 hid
  exact ((closure_eq_ok_iff.1 hright).2.1 id).2 (hreached.mono hsubset)

theorem closure_append (hleft : nfa.closure left = .ok closedLeft)
    (hright : nfa.closure right = .ok closedRight) :
    nfa.closure (left ++ right) = .ok (Ascending.union closedLeft closedRight) := by
  obtain ⟨-, hmemLeft, hexistsLeft⟩ := closure_eq_ok_iff.1 hleft
  obtain ⟨hascending, hmemRight, hexistsRight⟩ := closure_eq_ok_iff.1 hright
  simp only [closure_eq_ok_iff, silentlyReached_append, Ascending.mem_union, hmemLeft, hmemRight,
    implies_true, true_and]
  exact ⟨Ascending.pairwise_union hascending, fun id hreached =>
    hreached.elim (hexistsLeft id) (hexistsRight id)⟩

/-- Neither the order of the given states counts nor how often each is given. -/
theorem closure_congr (hsame : ∀ id, id ∈ left ↔ id ∈ right) :
    nfa.closure left = nfa.closure right := by
  have hreached : ∀ id, nfa.SilentlyReached left id ↔ nfa.SilentlyReached right id := fun id =>
    ⟨.mono fun id => (hsame id).1, .mono fun id => (hsame id).2⟩
  rcases closure_cases nfa right with ⟨closed, hclosed, -⟩ | ⟨hfails, hstray⟩
  · rw [hclosed, closure_eq_ok_iff]
    simpa only [hreached] using closure_eq_ok_iff.1 hclosed
  · rw [hfails, closure_eq_error_iff]
    simpa only [hreached] using hstray

end Laws

/-- The closure is the set of all states that silent moves reach if all of them exist, and fails if
one of them does not.  Hence on the states of a well-formed automaton it is a closure operator that
distributes over unions, and sees nothing of a list but its members. -/
theorem closure_exact (nfa : Nfa) :
    (∀ ids, (∀ id, nfa.SilentlyReached ids id → nfa.Exists id) →
      ∃ closed, nfa.closure ids = .ok closed ∧ closed.Pairwise (· < ·) ∧
        ∀ id, id ∈ closed ↔ nfa.SilentlyReached ids id) ∧
    (∀ ids, (¬ ∀ id, nfa.SilentlyReached ids id → nfa.Exists id) →
      nfa.closure ids = .error .noSuchState) ∧
    (nfa.WellFormed → ∀ left right, (∀ id ∈ left, nfa.Exists id) → (∀ id ∈ right, nfa.Exists id) →
      ∃ closedLeft closedRight, nfa.closure left = .ok closedLeft ∧
        nfa.closure right = .ok closedRight ∧ left ⊆ closedLeft ∧
        nfa.closure closedLeft = .ok closedLeft ∧ (left ⊆ right → closedLeft ⊆ closedRight) ∧
        nfa.closure (left ++ right) = .ok (Ascending.union closedLeft closedRight) ∧
        ((∀ id, id ∈ left ↔ id ∈ right) → closedLeft = closedRight)) := by
  have hfinds : ∀ ids, (∀ id, nfa.SilentlyReached ids id → nfa.Exists id) →
      ∃ closed, nfa.closure ids = .ok closed ∧ closed.Pairwise (· < ·) ∧
        ∀ id, id ∈ closed ↔ nfa.SilentlyReached ids id := by
    intro ids hexists
    rcases closure_cases nfa ids with ⟨closed, hclosed, hascending, hmem, -⟩ |
      ⟨-, id, hreached, habsent⟩
    · exact ⟨closed, hclosed, hascending, hmem⟩
    · exact absurd (hexists id hreached) habsent
  refine ⟨hfinds, fun ids hstray => ?_, fun hformed left right hleft hright => ?_⟩
  · rw [closure_eq_error_iff]
    simpa only [not_forall, exists_prop] using hstray
  · obtain ⟨closedLeft, hclosedLeft, -, hmem⟩ :=
      hfinds left fun id hreached => hreached.exists hformed hleft
    obtain ⟨closedRight, hclosedRight, -⟩ :=
      hfinds right fun id hreached => hreached.exists hformed hright
    refine ⟨closedLeft, closedRight, hclosedLeft, hclosedRight,
      fun id hid => (hmem id).2 (silentlyReached_of_mem hid), closure_closure hclosedLeft,
      closure_mono hclosedLeft hclosedRight, closure_append hclosedLeft hclosedRight,
      fun hsame => ?_⟩
    rw [closure_congr hsame, hclosedRight] at hclosedLeft
    exact (Except.ok.inj hclosedLeft).symm

theorem wellFormed_of_targets (htargets : ∀ state ∈ nfa.states.toList, ∀ entry ∈ state.edges,
    ∀ target ∈ entry.2, nfa.Exists target) : nfa.WellFormed := by
  intro source symbol target hedge
  obtain ⟨state, hstate, htarget⟩ := hedge.mem_states
  obtain ⟨set, hset, hmember⟩ := State.mem_targets.1 htarget
  exact htargets state hstate (symbol, set) hset target hmember

/-- Two silent moves in a circle, and a way out of it that is not silent. -/
def ringNfa : Nfa where
  states := #[.link epsilon 1 { id := 0 }, .link "a" 2 (.link epsilon 0 { id := 1 }),
    .accept { id := 2 }]
  start := 0
  finish := 2

/-- The state outside the circle has a silent move to a state that does not exist. -/
def tornNfa : Nfa :=
  { ringNfa with
    states := #[.link epsilon 1 { id := 0 }, .link "a" 2 (.link epsilon 0 { id := 1 }),
      .link epsilon 7 { id := 2 }] }

theorem closure_exact_ringNfa :
    (ringNfa.WellFormed ∧ ∃ circle all, ringNfa.closure [1, 0, 1] = .ok circle ∧
      ringNfa.closure [2, 0, 1] = .ok all ∧ ringNfa.closure circle = .ok circle ∧ circle ⊆ all) ∧
    (∃ closed, tornNfa.closure [1] = .ok closed ∧
      ∀ id, id ∈ closed ↔ tornNfa.SilentlyReached [1] id) ∧
    tornNfa.closure [1, 2] = .error .noSuchState := by
  have hformed : ringNfa.WellFormed := wellFormed_of_targets (by decide)
  have hcircle : tornNfa.closure [1] = .ok [0, 1] := by decide
  have hstray : tornNfa.SilentlyReached [1, 2] 7 :=
    ⟨2, by decide, .single ⟨.link epsilon 7 { id := 2 }, rfl, by decide⟩⟩
  have habsent : ¬ tornNfa.Exists 7 := by decide
  obtain ⟨hfinds, hfails, -⟩ := closure_exact tornNfa
  obtain ⟨circle, all, hleft, hright, -, hagain, hmono, -⟩ :=
    (closure_exact ringNfa).2.2 hformed [1, 0, 1] [2, 0, 1] (by decide) (by decide)
  obtain ⟨closed, hclosed, -, hmem⟩ := hfinds [1] (closure_eq_ok_iff.1 hcircle).2.2
  exact ⟨⟨hformed, circle, all, hleft, hright, hagain, hmono (by decide)⟩,
    ⟨closed, hclosed, hmem⟩, hfails [1, 2] fun hexists => habsent (hexists 7 hstray)⟩

end RegexAutomata.Nfa
