import RegexAutomata.Proofs.Position.Marking

/-!
# Who is blamed for a visit that stops

A visit to the nodes of a tree that stops at nodes of unknown kind stops at the first of them.  Two
visits in a row come to the nodes of the first one before those of the second, so that a visit that
goes down a tree from left to right stops at the leftmost unknown node.
-/

namespace RegexAutomata

/-- What may come of a visit to nodes some of which are unknown.  The kinds of these are listed in
the order of the visit: the first one is blamed, and without any the visit succeeds. -/
inductive Blames {α : Type} (blame : String → Failure) :
    List String → Except Failure α → Prop where
  | nobody (value : α) : Blames blame [] (.ok value)
  | first (kind : String) (others : List String) :
      Blames blame (kind :: others) (.error (blame kind))

namespace Blames

variable {α β : Type} {blame : String → Failure} {left right : List String}
  {result : Except Failure α}

theorem bind {next : α → Except Failure β} (hresult : Blames blame left result)
    (hnext : ∀ value, Blames blame right (next value)) :
    Blames blame (left ++ right) (result >>= next) := by
  cases hresult with
  | nobody value => exact hnext value
  | first kind others => exact .first kind (others ++ right)

/-- The last step of a visit goes to no further node. -/
theorem conclude {last : α → β} (hresult : Blames blame left result) :
    Blames blame left (result >>= fun value => pure (last value)) := by
  have hlast : Blames blame (left ++ []) (result >>= fun value => pure (last value)) :=
    hresult.bind fun value => .nobody (last value)
  rwa [List.append_nil] at hlast

theorem map {change : α → β} (hresult : Blames blame left result) :
    Blames blame left (result.map change) := by
  cases hresult with
  | nobody value => exact .nobody (change value)
  | first kind others => exact .first kind others

theorem eq_error {kind : String} {others : List String}
    (hresult : Blames blame (kind :: others) result) : result = .error (blame kind) := by
  cases hresult
  rfl

theorem exists_eq_ok (hresult : Blames blame [] result) : ∃ value, result = .ok value := by
  cases hresult with
  | nobody value => exact ⟨value, rfl⟩

theorem exists_eq_error_iff {kinds : List String} (hresult : Blames blame kinds result) :
    (∃ kind, result = .error (blame kind)) ↔ kinds ≠ [] := by
  cases hresult with
  | nobody value => exact iff_of_false (fun ⟨_, hnever⟩ => nomatch hnever) (not_not_intro rfl)
  | first kind others => exact iff_of_true ⟨kind, rfl⟩ (List.cons_ne_nil kind others)

end Blames

namespace Regex

theorem markFrom_blames (regex : Regex) (used : Position) :
    Blames .unknownNode regex.unknownKinds (markFrom used regex) := by
  induction regex generalizing used with
  | char value => exact .nobody _
  | concat left right ihLeft ihRight =>
    exact (ihLeft used).bind fun (_, usedLeft) => (ihRight usedLeft).conclude
  | alternation left right ihLeft ihRight =>
    exact (ihLeft used).bind fun (_, usedLeft) => (ihRight usedLeft).conclude
  | star inner ih => exact (ih used).conclude
  | unknown kind mark => exact .first kind []

/-- The end marker is known, and stands at the right of the tree. -/
theorem marked_blames (regex : Regex) :
    Blames .unknownNode regex.unknownKinds regex.marked := by
  have hended := markFrom_blames (concat regex (char endMarker)) 0
  rw [unknownKinds, unknownKinds, List.append_nil] at hended
  exact hended.conclude

end Regex
end RegexAutomata
