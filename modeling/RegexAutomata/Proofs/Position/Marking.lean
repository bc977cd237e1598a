import RegexAutomata.Proofs.Position.MarkedLanguage

/-!
# The numbering of a tree

A tree of known nodes can always be numbered.  Numbering changes nothing but the leaves, which get
consecutive positions from left to right.
-/

namespace RegexAutomata

/-- So many positions in a row, after those that are used already. -/
def consecutive (used : Int) (count : Nat) : List Int :=
  (List.range count).map fun index : Nat => used + 1 + index

theorem consecutive_add (used : Int) (left right : Nat) :
    consecutive used (left + right) =
      consecutive used left ++ consecutive (used + left) right := by
  unfold consecutive
  rw [List.range_add, List.map_append, List.map_map]
  congr 1
  apply List.map_congr_left
  intro index _
  simp only [Function.comp_apply, Int.natCast_add]
  omega

theorem nodup_consecutive (used : Int) (count : Nat) : (consecutive used count).Nodup := by
  apply List.Nodup.map _ List.nodup_range
  intro left right hequal
  exact Int.ofNat.inj (Int.add_left_cancel hequal)

theorem mem_consecutive {used position : Int} {count : Nat} :
    position ∈ consecutive used count ↔ used < position ∧ position ≤ used + count := by
  rw [consecutive, List.mem_map]
  constructor
  · rintro ⟨index, hindex, rfl⟩
    rw [List.mem_range] at hindex
    omega
  · rintro ⟨habove, hbelow⟩
    refine ⟨(position - used - 1).toNat, List.mem_range.2 ?_, ?_⟩ <;> omega

theorem length_consecutive (used : Int) (count : Nat) :
    (consecutive used count).length = count := by
  rw [consecutive, List.length_map, List.length_range]

namespace MarkedRegex

theorem language_unmarked (marked : MarkedRegex) :
    marked.language (fun _ value => value) = marked.unmarked.language := by
  induction marked with
  | leaf value position => rfl
  | concat left right ihLeft ihRight =>
    rw [language, unmarked, Regex.language, ihLeft, ihRight]
  | alternation left right ihLeft ihRight =>
    rw [language, unmarked, Regex.language, ihLeft, ihRight]
  | star inner ih => rw [language, unmarked, Regex.language, ih]

theorem values_unmarked (marked : MarkedRegex) :
    marked.unmarked.values = marked.leaves.map Prod.snd := by
  induction marked with
  | leaf value position => rfl
  | concat left right ihLeft ihRight =>
    rw [unmarked, Regex.values, leaves, List.map_append, ihLeft, ihRight]
  | alternation left right ihLeft ihRight =>
    rw [unmarked, Regex.values, leaves, List.map_append, ihLeft, ihRight]
  | star inner ih => rw [unmarked, Regex.values, leaves, ih]

theorem leaves_eq_zip (marked : MarkedRegex) :
    marked.leaves = marked.positions.zip marked.unmarked.values := by
  rw [values_unmarked]
  exact List.zip_of_prod rfl rfl

theorem distinct_of_consecutive {marked : MarkedRegex} {used : Int} {count : Nat}
    (hpositions : marked.positions = consecutive used count) : marked.Distinct := by
  rw [Distinct, hpositions]
  exact nodup_consecutive used count

/-- The expression with an end marker at a given position. -/
def ended (marked : MarkedRegex) (finish : Position) : MarkedRegex :=
  .concat marked (.leaf Regex.endMarker finish)

end MarkedRegex

namespace Regex

open MarkedRegex

/-- Numbering keeps the tree, and the leaves take the next positions from left to right. -/
theorem markFrom_eq {regex : Regex} (hknown : regex.isKnown) (used : Position) :
    ∃ marked, markFrom used regex = .ok (marked, used + marked.leaves.length) ∧
      marked.unmarked = regex ∧ marked.positions = consecutive used marked.leaves.length := by
  induction regex generalizing used with
  | char value => exact ⟨.leaf value (used + 1), rfl, rfl, by simp [positions, leaves, consecutive]⟩
  | concat left right ihLeft ihRight =>
    rw [isKnown, Bool.and_eq_true] at hknown
    obtain ⟨first, hfirst, hleft, hfirstPositions⟩ := ihLeft hknown.1 used
    obtain ⟨second, hsecond, hright, hsecondPositions⟩ :=
      ihRight hknown.2 (used + first.leaves.length)
    refine ⟨.concat first second, ?_, by rw [unmarked, hleft, hright], ?_⟩
    · simp [markFrom, hfirst, hsecond, leaves, bind, Except.bind, pure, Except.pure]
      exact Int.add_assoc _ _ _
    · rw [positions_concat, leaves, List.length_append, consecutive_add, hfirstPositions,
        hsecondPositions]
  | alternation left right ihLeft ihRight =>
    rw [isKnown, Bool.and_eq_true] at hknown
    obtain ⟨first, hfirst, hleft, hfirstPositions⟩ := ihLeft hknown.1 used
    obtain ⟨second, hsecond, hright, hsecondPositions⟩ :=
      ihRight hknown.2 (used + first.leaves.length)
    refine ⟨.alternation first second, ?_, by rw [unmarked, hleft, hright], ?_⟩
    · simp [markFrom, hfirst, hsecond, leaves, bind, Except.bind, pure, Except.pure]
      exact Int.add_assoc _ _ _
    · rw [positions_alternation, leaves, List.length_append, consecutive_add, hfirstPositions,
        hsecondPositions]
  | star inner ih =>
    obtain ⟨marked, hmarked, hinner, hpositions⟩ := ih hknown used
    refine ⟨.star marked, ?_, by rw [unmarked, hinner], hpositions⟩
    simp [markFrom, hmarked, leaves, bind, Except.bind, pure, Except.pure]
  | unknown kind mark => simp [isKnown] at hknown

/-- The end marker gets the position after those of the tree, which is the number of positions. -/
theorem marked_eq {regex : Regex} (hknown : regex.isKnown) :
    ∃ (marked : MarkedRegex) (finish : Position),
      regex.marked = .ok (marked.ended finish) ∧ marked.unmarked = regex ∧
      (marked.ended finish).positions = consecutive 0 (marked.ended finish).leaves.length ∧
      finish = (marked.ended finish).leaves.length := by
  obtain ⟨marked, hmarked, hregex, hpositions⟩ := markFrom_eq hknown 0
  refine ⟨marked, marked.leaves.length + 1, ?_, hregex, ?_, ?_⟩
  · simp [Regex.marked, markFrom, hmarked, ended, bind, Except.bind, pure, Except.pure]
  · rw [ended, positions_concat, leaves, List.length_append, consecutive_add, hpositions]
    simp [positions, leaves, consecutive]
  · simp [ended, leaves]

end Regex
end RegexAutomata
