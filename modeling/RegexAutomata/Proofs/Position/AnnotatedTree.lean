import RegexAutomata.Proofs.Position.TwoPasses

/-!
# What annotating keeps of a tree

Without what is written on it, an annotated tree is the tree that was given, with the end marker
after it.  The positions count its leaves from left to right, the two tables have rows for these
positions and no others, and the notes on a node speak of leaves below it.
-/

namespace RegexAutomata

namespace AnnotatedRegex

/-- The tree without positions and notes. -/
def plain : AnnotatedRegex → Regex
  | leaf value _ _ => .char value
  | concat left right _ => .concat left.plain right.plain
  | alternation left right _ => .alternation left.plain right.plain
  | star inner _ => .star inner.plain

def leaves : AnnotatedRegex → Table Position String
  | leaf value position _ => [(position, value)]
  | concat left right _ => left.leaves ++ right.leaves
  | alternation left right _ => left.leaves ++ right.leaves
  | star inner _ => inner.leaves

def positions (tree : AnnotatedRegex) : List Position :=
  tree.leaves.map Prod.fst

/-- The tree with its positions, without the notes. -/
def bare : AnnotatedRegex → MarkedRegex
  | leaf value position _ => .leaf value position
  | concat left right _ => .concat left.bare right.bare
  | alternation left right _ => .alternation left.bare right.bare
  | star inner _ => .star inner.bare

end AnnotatedRegex

/-- The annotated tree is the given one with the end marker after it.  Its leaves are numbered from
one on, the tables are about its positions, and the notes on each node about the leaves below. -/
structure Annotated.Describes (annotated : Annotated) (regex : Regex) : Prop where
  plain_eq : annotated.root.plain = .concat regex (.char Regex.endMarker)
  positions_eq : annotated.root.positions = consecutive 0 (regex.values.length + 1)
  keys_symbols : annotated.symbols.map Prod.fst = annotated.root.positions
  symbols_iff : ∀ position value,
    Table.value? position annotated.symbols = some value ↔
      (position, value) ∈ annotated.root.leaves
  keys_follow : annotated.follow.map Prod.fst = annotated.symbols.map Prod.fst
  follow_within : ∀ entry ∈ annotated.follow, ∀ position ∈ entry.2,
    1 ≤ position ∧ position ≤ regex.values.length + 1
  endPosition_eq : annotated.table.endPosition = regex.values.length + 1
  marker_last : annotated.root.leaves.getLast? =
    some (annotated.table.endPosition, Regex.endMarker)
  first_within : ∀ node ∈ annotated.root.subtrees,
    node.notes.first ≠ [] ∧ node.notes.first ⊆ node.positions
  last_within : ∀ node ∈ annotated.root.subtrees,
    node.notes.last ≠ [] ∧ node.notes.last ⊆ node.positions

namespace MarkedRegex

def subtrees : MarkedRegex → List MarkedRegex
  | leaf value position => [leaf value position]
  | concat left right => concat left right :: left.subtrees ++ right.subtrees
  | alternation left right => alternation left right :: left.subtrees ++ right.subtrees
  | star inner => star inner :: inner.subtrees

theorem plain_withNotes (marked : MarkedRegex) : marked.withNotes.plain = marked.unmarked := by
  induction marked with
  | leaf value position => rfl
  | concat left right ihLeft ihRight =>
    rw [withNotes, AnnotatedRegex.plain, ihLeft, ihRight, unmarked]
  | alternation left right ihLeft ihRight =>
    rw [withNotes, AnnotatedRegex.plain, ihLeft, ihRight, unmarked]
  | star inner ih => rw [withNotes, AnnotatedRegex.plain, ih, unmarked]

theorem bare_withNotes (marked : MarkedRegex) : marked.withNotes.bare = marked := by
  induction marked with
  | leaf value position => rfl
  | concat left right ihLeft ihRight => rw [withNotes, AnnotatedRegex.bare, ihLeft, ihRight]
  | alternation left right ihLeft ihRight => rw [withNotes, AnnotatedRegex.bare, ihLeft, ihRight]
  | star inner ih => rw [withNotes, AnnotatedRegex.bare, ih]

theorem leaves_withNotes (marked : MarkedRegex) : marked.withNotes.leaves = marked.leaves := by
  induction marked with
  | leaf value position => rfl
  | concat left right ihLeft ihRight =>
    rw [withNotes, AnnotatedRegex.leaves, ihLeft, ihRight, leaves]
  | alternation left right ihLeft ihRight =>
    rw [withNotes, AnnotatedRegex.leaves, ihLeft, ihRight, leaves]
  | star inner ih => rw [withNotes, AnnotatedRegex.leaves, ih, leaves]

theorem positions_withNotes (marked : MarkedRegex) :
    marked.withNotes.positions = marked.positions := by
  rw [AnnotatedRegex.positions, leaves_withNotes, positions]

theorem subtrees_withNotes (marked : MarkedRegex) :
    marked.withNotes.subtrees = marked.subtrees.map withNotes := by
  induction marked with
  | leaf value position => rfl
  | concat left right ihLeft ihRight =>
    rw [withNotes, AnnotatedRegex.subtrees, ihLeft, ihRight, subtrees, List.map_append,
      List.map_cons, withNotes]
  | alternation left right ihLeft ihRight =>
    rw [withNotes, AnnotatedRegex.subtrees, ihLeft, ihRight, subtrees, List.map_append,
      List.map_cons, withNotes]
  | star inner ih =>
    rw [withNotes, AnnotatedRegex.subtrees, ih, subtrees, List.map_cons, withNotes]

/-- What the notes on each node say, if it is said of every marked expression. -/
theorem forall_subtrees_withNotes {marked : MarkedRegex} {property : AnnotatedRegex → Prop}
    (hproperty : ∀ node : MarkedRegex, property node.withNotes) :
    ∀ node ∈ marked.withNotes.subtrees, property node := by
  intro node hnode
  rw [subtrees_withNotes] at hnode
  obtain ⟨own, -, rfl⟩ := List.mem_map.1 hnode
  exact hproperty own

end MarkedRegex

namespace Annotated

open MarkedRegex

/-- What the numbered tree says of itself is what annotating writes down. -/
theorem describes_ofMarked {marked : MarkedRegex} {finish : Position}
    (hpositions : (marked.ended finish).positions =
      consecutive 0 (marked.ended finish).leaves.length)
    (hfinish : finish = (marked.ended finish).leaves.length) :
    (ofMarked (marked.ended finish)).Describes marked.unmarked := by
  have hlength : (marked.ended finish).leaves.length = marked.unmarked.values.length + 1 := by
    rw [ended, leaves, List.length_append, values_unmarked, List.length_map]
    rfl
  have hend : (ofMarked (marked.ended finish)).table.endPosition = finish := hfinish.symm
  constructor
  case plain_eq => exact plain_withNotes _
  case positions_eq => exact (positions_withNotes _).trans (hpositions.trans (by rw [hlength]))
  case keys_symbols => exact (positions_withNotes _).symm
  case symbols_iff =>
    intro position value
    rw [ofMarked, leaves_withNotes]
    exact Table.value?_eq_some_iff (distinct_of_consecutive hpositions)
  case keys_follow => exact MarkedRegex.keys_follow _
  case follow_within =>
    intro entry hentry position hposition
    have hin := (marked.ended finish).follow_subset entry hentry hposition
    rw [hpositions, hlength, mem_consecutive, Int.zero_add] at hin
    exact hin
  case endPosition_eq =>
    rw [hend, hfinish, hlength]
    rfl
  case marker_last =>
    rw [hend, ofMarked, leaves_withNotes]
    exact List.getLast?_concat
  case first_within =>
    refine forall_subtrees_withNotes fun node => ?_
    rw [notes_withNotes, positions_withNotes]
    exact ⟨node.first_ne_nil, node.first_subset⟩
  case last_within =>
    refine forall_subtrees_withNotes fun node => ?_
    rw [notes_withNotes, positions_withNotes]
    exact ⟨node.last_ne_nil, node.last_subset⟩

end Annotated

namespace Regex

/-- A tree of known nodes can be annotated.  Both passes number its leaves alike, from left to right
and the end marker last; nothing else about the tree changes. -/
theorem annotate_exact {regex : Regex} (hknown : regex.isKnown) :
    ∃ annotated, regex.annotate = .ok annotated ∧ annotated.Describes regex := by
  obtain ⟨marked, finish, hmarked, rfl, hpositions, hfinish⟩ := marked_eq hknown
  exact ⟨_, annotate_of_marked hmarked, Annotated.describes_ofMarked hpositions hfinish⟩

/-- A repeated choice between a letter and a character with the text of the end marker. -/
def repeatedChoice : Regex :=
  .concat (.star (.alternation (.char "a") (.char endMarker))) (.char "b")

theorem annotate_exact_repeatedChoice :
    repeatedChoice.isKnown ∧
    ∃ annotated, repeatedChoice.annotate = .ok annotated ∧ annotated.Describes repeatedChoice :=
  ⟨rfl, annotate_exact rfl⟩

example : repeatedChoice.annotate.map (fun annotated => (annotated.symbols, annotated.follow)) =
    .ok ([(1, "a"), (2, "#"), (3, "b"), (4, "#")],
      [(1, [1, 2, 3]), (2, [1, 2, 3]), (3, [4]), (4, [])]) := by
  decide +kernel

end Regex
end RegexAutomata
