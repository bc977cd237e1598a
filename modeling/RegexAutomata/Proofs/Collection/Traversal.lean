/-!
# Visiting a list with a step that may fail

If the step succeeds at every item, then so does the visit, and its result is made of the results
of the steps.  Two steps in a row succeed if each of them does.
-/

namespace RegexAutomata.Traversal

variable {ε α β : Type} {items : List α}

theorem bind_eq_ok_iff {first : Except ε α} {second : α → Except ε β} {value : β} :
    (first >>= second) = .ok value ↔ ∃ middle, first = .ok middle ∧ second middle = .ok value := by
  cases first <;> simp [bind, Except.bind]

theorem bind_eq_error_iff {first : Except ε α} {second : α → Except ε β} {failure : ε} :
    (first >>= second) = .error failure ↔
      first = .error failure ∨ ∃ middle, first = .ok middle ∧ second middle = .error failure := by
  cases first <;> simp [bind, Except.bind]

theorem map_eq_error_iff {result : Except ε α} {change : α → β} {failure : ε} :
    change <$> result = .error failure ↔ result = .error failure := by
  cases result <;> simp [Functor.map, Except.map]

theorem mapError_bind {δ : Type} (result : Except ε α) (next : α → Except ε β) (change : ε → δ) :
    (result >>= next).mapError change =
      result.mapError change >>= fun value => (next value).mapError change := by
  cases result <;> rfl

theorem mapError_eq_ok_iff {δ : Type} {result : Except ε α} {change : ε → δ} {value : α} :
    result.mapError change = .ok value ↔ result = .ok value := by
  cases result with
  | ok found =>
    exact ⟨fun hequal => congrArg Except.ok (Except.ok.inj hequal),
      fun hequal => congrArg Except.ok (Except.ok.inj hequal)⟩
  | error failure => exact ⟨fun hnever => (nomatch hnever), fun hnever => (nomatch hnever)⟩

/-- A visit that succeeds for every item succeeds for the whole list, and gives their values. -/
theorem mapM_of_forall {visit : α → Except ε β}
    (hvisit : ∀ item ∈ items, ∃ value, visit item = .ok value) :
    ∃ values, items.mapM visit = .ok values ∧
      ∀ value, value ∈ values ↔ ∃ item ∈ items, visit item = .ok value := by
  induction items with
  | nil => exact ⟨[], rfl, fun value => by simp⟩
  | cons item rest ih =>
    rw [List.forall_mem_cons] at hvisit
    obtain ⟨⟨first, hfirst⟩, hrest⟩ := hvisit
    obtain ⟨values, hvalues, hmem⟩ := ih hrest
    refine ⟨first :: values, ?_, fun value => ?_⟩
    · simp [hfirst, hvalues, bind, Except.bind, pure, Except.pure]
    · simp [hmem, hfirst, eq_comm]

theorem mapM_eq_map {visit : α → Except ε β} {result : α → β}
    (hvisit : ∀ item ∈ items, visit item = .ok (result item)) :
    items.mapM visit = .ok (items.map result) := by
  induction items with
  | nil => rfl
  | cons item rest ih =>
    rw [List.forall_mem_cons] at hvisit
    simp [hvisit.1, ih hvisit.2, bind, Except.bind, pure, Except.pure]

theorem filterAuxM_of_forall {test : α → Except ε Bool} {answer : α → Bool}
    (htest : ∀ item ∈ items, test item = .ok (answer item)) (found : List α) :
    items.filterAuxM test found = .ok ((items.filter answer).reverse ++ found) := by
  induction items generalizing found with
  | nil => rfl
  | cons item rest ih =>
    rw [List.forall_mem_cons] at htest
    rw [List.filterAuxM, htest.1]
    refine (ih htest.2 _).trans ?_
    cases hanswer : answer item <;> simp [hanswer]

theorem filterM_of_forall {test : α → Except ε Bool} {answer : α → Bool}
    (htest : ∀ item ∈ items, test item = .ok (answer item)) :
    items.filterM test = .ok (items.filter answer) := by
  rw [List.filterM, filterAuxM_of_forall htest]
  simp [bind, Except.bind, pure, Except.pure]

end RegexAutomata.Traversal
