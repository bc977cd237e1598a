import RegexAutomata.Position.MarkedRegex
import RegexAutomata.Proofs.Regex.Language

/-!
# What first, last and following positions say about words

Each position of a marked expression stands for one symbol.  A non-empty word of the expression
starts at one of its first positions, and what comes after a position is either the end of the word,
if the position is a last one, or starts at one of the positions that may follow.  The positions
have to be distinct for this.
-/

namespace RegexAutomata.MarkedRegex

open Computability

variable {α : Type}

def positions (marked : MarkedRegex) : List Position :=
  marked.leaves.map Prod.fst

def followers (marked : MarkedRegex) (position : Position) : List Position :=
  (Table.value? position marked.follow).getD []

/-- The words of a marked expression, its characters being read as symbols. -/
def language (read : Position → String → α) : MarkedRegex → Language α
  | leaf value position => {[read position value]}
  | concat left right => left.language read * right.language read
  | alternation left right => left.language read + right.language read
  | star inner => (inner.language read)∗

/-- What may come in a word after a position. -/
def after (read : Position → String → α) (position : Position) : MarkedRegex → Language α
  | leaf _ own => if own = position then 1 else 0
  | concat left right =>
    left.after read position * right.language read + right.after read position
  | alternation left right => left.after read position + right.after read position
  | star inner => inner.after read position * (inner.language read)∗

/-- The words that start at one of given positions. -/
def heads (read : Position → String → α) (set : List Position) (marked : MarkedRegex) :
    Language α :=
  {word | ∃ position ∈ set, ∃ value, (position, value) ∈ marked.leaves ∧
    ∃ rest ∈ marked.after read position, word = read position value :: rest}

/-- The empty word alone, or no word. -/
def emptyIf (empty : Bool) : Language α :=
  if empty then 1 else 0

section Positions

variable {left right inner marked : MarkedRegex} {position : Position}

theorem positions_concat : (concat left right).positions = left.positions ++ right.positions :=
  List.map_append

theorem positions_alternation :
    (alternation left right).positions = left.positions ++ right.positions :=
  List.map_append

theorem mem_positions_of_mem_leaves {value : String} (hleaf : (position, value) ∈ marked.leaves) :
    position ∈ marked.positions :=
  List.mem_map_of_mem (f := Prod.fst) hleaf

theorem first_subset (marked : MarkedRegex) : marked.first ⊆ marked.positions := by
  induction marked with
  | leaf value position => simp [first, positions, leaves]
  | concat left right ihLeft ihRight =>
    intro position hfirst
    rw [positions_concat, List.mem_append]
    rw [first] at hfirst
    split at hfirst
    · exact (Ascending.mem_union.1 hfirst).imp (@ihLeft _) (@ihRight _)
    · exact Or.inl (ihLeft hfirst)
  | alternation left right ihLeft ihRight =>
    intro position hfirst
    rw [positions_alternation, List.mem_append]
    exact (Ascending.mem_union.1 hfirst).imp (@ihLeft _) (@ihRight _)
  | star inner ih => exact ih

theorem last_subset (marked : MarkedRegex) : marked.last ⊆ marked.positions := by
  induction marked with
  | leaf value position => simp [last, positions, leaves]
  | concat left right ihLeft ihRight =>
    intro position hlast
    rw [positions_concat, List.mem_append]
    rw [last] at hlast
    split at hlast
    · exact (Ascending.mem_union.1 hlast).imp (@ihLeft _) (@ihRight _)
    · exact Or.inr (ihRight hlast)
  | alternation left right ihLeft ihRight =>
    intro position hlast
    rw [positions_alternation, List.mem_append]
    exact (Ascending.mem_union.1 hlast).imp (@ihLeft _) (@ihRight _)
  | star inner ih => exact ih

theorem mem_last_concat_left (hright : position ∉ right.positions) :
    position ∈ (concat left right).last ↔ right.nullable ∧ position ∈ left.last := by
  have hlast : position ∉ right.last := fun hin => hright (right.last_subset hin)
  cases hnullable : right.nullable <;> simp [last, hnullable, hlast]

theorem mem_last_concat_right (hleft : position ∉ left.positions) :
    position ∈ (concat left right).last ↔ position ∈ right.last := by
  have hlast : position ∉ left.last := fun hin => hleft (left.last_subset hin)
  cases hnullable : right.nullable <;> simp [last, hnullable, hlast]

theorem mem_last_alternation :
    position ∈ (alternation left right).last ↔ position ∈ left.last ∨ position ∈ right.last :=
  Ascending.mem_union

/-- Some position comes first. -/
theorem first_ne_nil (marked : MarkedRegex) : marked.first ≠ [] := by
  induction marked with
  | leaf value position => exact List.cons_ne_nil _ _
  | concat left right ihLeft ihRight =>
    rw [first]
    split
    · exact mt (And.left ∘ Ascending.union_eq_nil_iff.1) ihLeft
    · exact ihLeft
  | alternation left right ihLeft ihRight =>
    exact mt (And.left ∘ Ascending.union_eq_nil_iff.1) ihLeft
  | star inner ih => exact ih

/-- Some position comes last. -/
theorem last_ne_nil (marked : MarkedRegex) : marked.last ≠ [] := by
  induction marked with
  | leaf value position => exact List.cons_ne_nil _ _
  | concat left right ihLeft ihRight =>
    rw [last]
    split
    · exact mt (And.right ∘ Ascending.union_eq_nil_iff.1) ihRight
    · exact ihRight
  | alternation left right ihLeft ihRight =>
    exact mt (And.right ∘ Ascending.union_eq_nil_iff.1) ihRight
  | star inner ih => exact ih

theorem ascending_first (marked : MarkedRegex) : marked.first.Pairwise (· < ·) := by
  induction marked with
  | leaf value position => exact List.pairwise_singleton _ _
  | concat left right ihLeft ihRight =>
    rw [first]
    split
    · exact Ascending.pairwise_union ihRight
    · exact ihLeft
  | alternation left right ihLeft ihRight => exact Ascending.pairwise_union ihRight
  | star inner ih => exact ih

theorem ascending_last (marked : MarkedRegex) : marked.last.Pairwise (· < ·) := by
  induction marked with
  | leaf value position => exact List.pairwise_singleton _ _
  | concat left right ihLeft ihRight =>
    rw [last]
    split
    · exact Ascending.pairwise_union ihRight
    · exact ihRight
  | alternation left right ihLeft ihRight => exact Ascending.pairwise_union ihRight
  | star inner ih => exact ih

theorem keys_linked (before after : List Position) (table : Table Position (List Position)) :
    (linked before after table).map Prod.fst = table.map Prod.fst := by
  simp [linked, Function.comp_def]

theorem keys_follow (marked : MarkedRegex) : marked.follow.map Prod.fst = marked.positions := by
  induction marked with
  | leaf value position => rfl
  | concat left right ihLeft ihRight =>
    rw [follow, keys_linked, List.map_append, ihLeft, ihRight, positions_concat]
  | alternation left right ihLeft ihRight =>
    rw [follow, List.map_append, ihLeft, ihRight, positions_alternation]
  | star inner ih => rw [follow, keys_linked, ih, positions, positions, leaves]

theorem value?_linked (before after : List Position) (table : Table Position (List Position)) :
    Table.value? position (linked before after table) =
      (Table.value? position table).map fun known =>
        if position ∈ before then Ascending.union after known else known :=
  Table.value?_map table
    (fun key known => if key ∈ before then Ascending.union after known else known) position

/-- Only positions of the expression follow. -/
theorem follow_subset (marked : MarkedRegex) :
    ∀ entry ∈ marked.follow, entry.2 ⊆ marked.positions := by
  have hlinked : ∀ {before after set : List Position} {table : Table Position (List Position)},
      after ⊆ set → (∀ entry ∈ table, entry.2 ⊆ set) →
        ∀ entry ∈ linked before after table, entry.2 ⊆ set := by
    intro before after set table hafter htable entry hentry position hposition
    obtain ⟨known, hknown, rfl⟩ := List.mem_map.1 hentry
    dsimp only at hposition
    split at hposition
    · rcases Ascending.mem_union.1 hposition with hnew | hold
      · exact hafter hnew
      · exact htable known hknown hold
    · exact htable known hknown hposition
  have happend : ∀ {first second : Table Position (List Position)} {before after : List Position},
      (∀ entry ∈ first, entry.2 ⊆ before) → (∀ entry ∈ second, entry.2 ⊆ after) →
        ∀ entry ∈ first ++ second, entry.2 ⊆ before ++ after := by
    intro first second before after hfirst hsecond entry hentry
    rcases List.mem_append.1 hentry with hleft | hright
    · exact List.subset_append_of_subset_left _ (hfirst entry hleft)
    · exact List.subset_append_of_subset_right _ (hsecond entry hright)
  induction marked with
  | leaf value position => simp [follow]
  | concat left right ihLeft ihRight =>
    rw [positions_concat]
    exact hlinked (List.subset_append_of_subset_right _ right.first_subset)
      (happend ihLeft ihRight)
  | alternation left right ihLeft ihRight =>
    rw [positions_alternation]
    exact happend ihLeft ihRight
  | star inner ih => exact hlinked inner.first_subset ih

theorem followers_subset (marked : MarkedRegex) (position : Position) :
    marked.followers position ⊆ marked.positions := by
  unfold followers
  cases hvalue : Table.value? position marked.follow with
  | none => exact List.nil_subset _
  | some known => exact marked.follow_subset _ (Table.mem_of_value?_eq_some hvalue)

theorem getD_value?_linked {before after : List Position} {table : Table Position (List Position)}
    (hposition : position ∈ table.map Prod.fst) :
    (Table.value? position (linked before after table)).getD [] =
      if position ∈ before then Ascending.union after ((Table.value? position table).getD [])
      else (Table.value? position table).getD [] := by
  obtain ⟨known, hknown⟩ := Option.isSome_iff_exists.1 (Table.isSome_value?_iff.2 hposition)
  rw [value?_linked, hknown]
  rfl

theorem getD_value?_append_left (hposition : position ∈ left.positions) :
    (Table.value? position (left.follow ++ right.follow)).getD [] = left.followers position := by
  rw [← keys_follow] at hposition
  obtain ⟨known, hknown⟩ := Option.isSome_iff_exists.1 (Table.isSome_value?_iff.2 hposition)
  rw [Table.value?_append, followers, hknown]
  rfl

theorem getD_value?_append_right (hposition : position ∉ left.positions) :
    (Table.value? position (left.follow ++ right.follow)).getD [] = right.followers position := by
  rw [← keys_follow, ← Table.isSome_value?_iff, Option.not_isSome_iff_eq_none] at hposition
  rw [Table.value?_append, hposition]
  rfl

theorem mem_keys_append :
    position ∈ (left.follow ++ right.follow).map Prod.fst ↔
      position ∈ left.positions ∨ position ∈ right.positions := by
  rw [List.map_append, keys_follow, keys_follow, List.mem_append]

theorem followers_leaf (value : String) (position : Position) :
    (leaf value position).followers position = [] := by
  simp [followers, follow, Table.value?]

theorem followers_alternation_left (hleft : position ∈ left.positions) :
    (alternation left right).followers position = left.followers position :=
  getD_value?_append_left hleft

theorem followers_alternation_right (hleft : position ∉ left.positions) :
    (alternation left right).followers position = right.followers position :=
  getD_value?_append_right hleft

theorem followers_concat_left (hposition : position ∈ left.positions) :
    (concat left right).followers position =
      if position ∈ left.last then Ascending.union right.first (left.followers position)
      else left.followers position := by
  rw [followers, follow, getD_value?_linked (mem_keys_append.2 (Or.inl hposition)),
    getD_value?_append_left hposition]

theorem followers_concat_right (hleft : position ∉ left.positions)
    (hright : position ∈ right.positions) :
    (concat left right).followers position = right.followers position := by
  rw [followers, follow, getD_value?_linked (mem_keys_append.2 (Or.inr hright)),
    if_neg fun hlast => hleft (left.last_subset hlast), getD_value?_append_right hleft]

theorem followers_star (hposition : position ∈ inner.positions) :
    (star inner).followers position =
      if position ∈ inner.last then Ascending.union inner.first (inner.followers position)
      else inner.followers position := by
  rw [← keys_follow] at hposition
  rw [followers, follow, getD_value?_linked hposition, followers]

end Positions

section Heads

variable {read : Position → String → α} {left right inner marked : MarkedRegex}
  {position : Position} {set : List Position}

/-- Nothing comes after a position that is not there. -/
theorem after_eq_zero (habsent : position ∉ marked.positions) : marked.after read position = 0 := by
  induction marked with
  | leaf value own =>
    have hown : own ≠ position := by simpa [positions, leaves, eq_comm] using habsent
    rw [after, if_neg hown]
  | concat left right ihLeft ihRight =>
    rw [positions_concat, List.mem_append, not_or] at habsent
    rw [after, ihLeft habsent.1, ihRight habsent.2, zero_mul, zero_add]
  | alternation left right ihLeft ihRight =>
    rw [positions_alternation, List.mem_append, not_or] at habsent
    rw [after, ihLeft habsent.1, ihRight habsent.2, zero_add]
  | star inner ih => rw [after, ih habsent, zero_mul]

theorem heads_nil (marked : MarkedRegex) : marked.heads read [] = 0 := by
  ext word
  constructor
  · rintro ⟨position, hposition, -⟩
    exact absurd hposition List.not_mem_nil
  · exact False.elim

theorem heads_leaf (value : String) (position : Position) :
    (leaf value position).heads read [position] = {[read position value]} := by
  ext word
  simp [heads, leaves, after]
  rfl

/-- A word that starts in a union starts in one of its parts. -/
theorem heads_union (first second : List Position) :
    marked.heads read (Ascending.union first second) =
      marked.heads read first + marked.heads read second := by
  ext word
  rw [Language.mem_add]
  constructor
  · rintro ⟨position, hposition, hrest⟩
    exact (Ascending.mem_union.1 hposition).imp (fun hfirst => ⟨position, hfirst, hrest⟩)
      fun hsecond => ⟨position, hsecond, hrest⟩
  · rintro (⟨position, hposition, hrest⟩ | ⟨position, hposition, hrest⟩)
    · exact ⟨position, Ascending.mem_union.2 (Or.inl hposition), hrest⟩
    · exact ⟨position, Ascending.mem_union.2 (Or.inr hposition), hrest⟩

theorem heads_of_forall {other : List Position}
    (hset : ∀ position ∈ marked.positions, position ∈ set ↔ position ∈ other) :
    marked.heads read set = marked.heads read other := by
  ext word
  constructor
  · rintro ⟨position, hposition, value, hleaf, hrest⟩
    have hin := mem_positions_of_mem_leaves hleaf
    exact ⟨position, (hset position hin).1 hposition, value, hleaf, hrest⟩
  · rintro ⟨position, hposition, value, hleaf, hrest⟩
    have hin := mem_positions_of_mem_leaves hleaf
    exact ⟨position, (hset position hin).2 hposition, value, hleaf, hrest⟩

/-- If every word after a position goes on to a word of another language, then so does every word
that starts at the position. -/
theorem heads_eq_mul {whole : MarkedRegex} {rest : Language α}
    (hleaves : ∀ position ∈ set, ∀ value, (position, value) ∈ whole.leaves ↔
      (position, value) ∈ marked.leaves)
    (hafter : ∀ position ∈ set, whole.after read position = marked.after read position * rest) :
    whole.heads read set = marked.heads read set * rest := by
  ext word
  constructor
  · rintro ⟨position, hposition, value, hleaf, tail, htail, rfl⟩
    rw [hafter position hposition] at htail
    obtain ⟨own, hown, more, hmore, rfl⟩ := htail
    exact ⟨read position value :: own,
      ⟨position, hposition, value, (hleaves position hposition value).1 hleaf, own, hown, rfl⟩,
      more, hmore, rfl⟩
  · rintro ⟨_, ⟨position, hposition, value, hleaf, own, hown, rfl⟩, more, hmore, rfl⟩
    refine ⟨position, hposition, value, (hleaves position hposition value).2 hleaf, own ++ more,
      ?_, rfl⟩
    rw [hafter position hposition]
    exact Language.append_mem_mul hown hmore

theorem heads_star : (star inner).heads read set = inner.heads read set * (inner.language read)∗ :=
  heads_eq_mul (fun _ _ _ => Iff.rfl) fun _ _ => rfl

section Disjoint

variable (hdisjoint : left.positions.Disjoint right.positions)

include hdisjoint

theorem mem_leaves_append_left (hset : set ⊆ left.positions) :
    ∀ position ∈ set, ∀ value, (position, value) ∈ left.leaves ++ right.leaves ↔
      (position, value) ∈ left.leaves := by
  intro position hposition value
  rw [List.mem_append]
  apply or_iff_left
  intro hright
  exact hdisjoint (hset hposition) (mem_positions_of_mem_leaves hright)

theorem mem_leaves_append_right (hset : set ⊆ right.positions) :
    ∀ position ∈ set, ∀ value, (position, value) ∈ left.leaves ++ right.leaves ↔
      (position, value) ∈ right.leaves := by
  intro position hposition value
  rw [List.mem_append]
  apply or_iff_right
  intro hleft
  exact hdisjoint (mem_positions_of_mem_leaves hleft) (hset hposition)

theorem heads_concat_left (hset : set ⊆ left.positions) :
    (concat left right).heads read set = left.heads read set * right.language read := by
  apply heads_eq_mul (mem_leaves_append_left hdisjoint hset)
  intro position hposition
  rw [after, after_eq_zero (hdisjoint (hset hposition)), add_zero]

theorem heads_concat_right (hset : set ⊆ right.positions) :
    (concat left right).heads read set = right.heads read set := by
  rw [← mul_one (right.heads read set)]
  apply heads_eq_mul (mem_leaves_append_right hdisjoint hset)
  intro position hposition
  rw [after, after_eq_zero fun hleft => hdisjoint hleft (hset hposition), zero_mul, zero_add,
    mul_one]

theorem heads_alternation_left (hset : set ⊆ left.positions) :
    (alternation left right).heads read set = left.heads read set := by
  rw [← mul_one (left.heads read set)]
  apply heads_eq_mul (mem_leaves_append_left hdisjoint hset)
  intro position hposition
  rw [after, after_eq_zero (hdisjoint (hset hposition)), add_zero, mul_one]

theorem heads_alternation_right (hset : set ⊆ right.positions) :
    (alternation left right).heads read set = right.heads read set := by
  rw [← mul_one (right.heads read set)]
  apply heads_eq_mul (mem_leaves_append_right hdisjoint hset)
  intro position hposition
  rw [after, after_eq_zero fun hleft => hdisjoint hleft (hset hposition), zero_add, mul_one]

end Disjoint

end Heads

section Distinct

variable {read : Position → String → α} {left right inner marked : MarkedRegex}

def Distinct (marked : MarkedRegex) : Prop :=
  marked.positions.Nodup

theorem Distinct.concat (hdistinct : (concat left right).Distinct) :
    left.Distinct ∧ right.Distinct ∧ left.positions.Disjoint right.positions := by
  rw [Distinct, positions_concat] at hdistinct
  exact List.nodup_append'.1 hdistinct

theorem Distinct.alternation (hdistinct : (alternation left right).Distinct) :
    left.Distinct ∧ right.Distinct ∧ left.positions.Disjoint right.positions :=
  Distinct.concat hdistinct

theorem emptyIf_or (first second : Bool) :
    (emptyIf (first || second) : Language α) = emptyIf first + emptyIf second := by
  cases first <;> cases second <;> simp [emptyIf]

theorem emptyIf_le_one (empty : Bool) : (emptyIf empty : Language α) ≤ 1 := by
  cases empty
  · exact bot_le
  · exact le_refl _

/-- Repetitions may be taken of words that are not empty. -/
theorem kstar_of_eq_add {whole proper : Language α} {empty : Bool}
    (hwhole : whole = emptyIf empty + proper) : whole∗ = 1 + proper * whole∗ := by
  have hproper : proper ≤ whole := by
    rw [hwhole]
    exact le_add_self
  have hrounds : 1 + proper * whole∗ ≤ whole∗ := by
    calc 1 + proper * whole∗
        ≤ 1 + whole * whole∗ := by gcongr
      _ = whole∗ := one_add_mul_kstar
  apply le_antisymm _ hrounds
  apply kstar_le_of_mul_le_right
  · exact le_self_add
  · calc whole * (1 + proper * whole∗)
        = emptyIf empty * (1 + proper * whole∗) + proper * (1 + proper * whole∗) := by
          rw [← add_mul, ← hwhole]
      _ ≤ 1 * (1 + proper * whole∗) + proper * whole∗ := by
          gcongr
          exact emptyIf_le_one empty
      _ = 1 + proper * whole∗ := by
          rw [one_mul, add_assoc, add_idem]

/-- A word is empty or starts at a first position. -/
theorem language_eq (hdistinct : marked.Distinct) :
    marked.language read = emptyIf marked.nullable + marked.heads read marked.first := by
  induction marked with
  | leaf value position =>
    rw [language, nullable, first, heads_leaf]
    exact (zero_add _).symm
  | concat left right ihLeft ihRight =>
    obtain ⟨hleft, hright, hdisjoint⟩ := hdistinct.concat
    have hheads := @heads_concat_left _ read _ _ _ hdisjoint left.first_subset
    rw [language, nullable, first]
    cases hnullable : left.nullable with
    | false =>
      rw [if_neg Bool.false_ne_true, hheads, ihLeft hleft, hnullable]
      simp [emptyIf]
    | true =>
      rw [if_pos rfl, heads_union, hheads, heads_concat_right hdisjoint right.first_subset]
      calc left.language read * right.language read
          = (1 + left.heads read left.first) * right.language read := by
            rw [ihLeft hleft, hnullable]
            rfl
        _ = right.language read + left.heads read left.first * right.language read := by
            rw [add_mul, one_mul]
        _ = emptyIf right.nullable + right.heads read right.first +
              left.heads read left.first * right.language read := by
            rw [← ihRight hright]
        _ = emptyIf (true && right.nullable) +
              (left.heads read left.first * right.language read +
                right.heads read right.first) := by
            rw [Bool.true_and, add_assoc, add_comm (right.heads read right.first)]
  | alternation left right ihLeft ihRight =>
    obtain ⟨hleft, hright, hdisjoint⟩ := hdistinct.alternation
    rw [language, nullable, first, heads_union, heads_alternation_left hdisjoint left.first_subset,
      heads_alternation_right hdisjoint right.first_subset, ihLeft hleft, ihRight hright,
      emptyIf_or, add_add_add_comm]
  | star inner ih =>
    rw [language, nullable, first, heads_star]
    exact kstar_of_eq_add (ih hdistinct)

/-- After a position a word ends, if the position is a last one, or goes on at a position that may
follow. -/
theorem after_eq (hdistinct : marked.Distinct) {position : Position}
    (hposition : position ∈ marked.positions) :
    marked.after read position = emptyIf (decide (position ∈ marked.last)) +
      marked.heads read (marked.followers position) := by
  induction marked with
  | leaf value own =>
    obtain rfl : position = own := by simpa [positions, leaves] using hposition
    rw [after, if_pos rfl, last, followers_leaf, heads_nil, add_zero]
    simp [emptyIf]
  | concat left right ihLeft ihRight =>
    obtain ⟨hleft, hright, hdisjoint⟩ := hdistinct.concat
    rw [positions_concat, List.mem_append] at hposition
    rcases hposition with hin | hin
    · have hout : position ∉ right.positions := fun hother => hdisjoint hin hother
      have hown := @heads_concat_left _ read _ _ _ hdisjoint (left.followers_subset position)
      rw [after, after_eq_zero hout, add_zero, followers_concat_left hin, ihLeft hleft hin, add_mul]
      by_cases hends : position ∈ left.last
      · have hlast : decide (position ∈ (concat left right).last) = right.nullable := by
          simp [mem_last_concat_left hout, hends]
        rw [if_pos hends, heads_union, hown, heads_concat_right hdisjoint right.first_subset,
          decide_eq_true hends, hlast, ← add_assoc, ← language_eq hright]
        exact congrArg (· + _) (one_mul _)
      · have hlast : decide (position ∈ (concat left right).last) = false := by
          simp [mem_last_concat_left hout, hends]
        rw [if_neg hends, hown, decide_eq_false hends, hlast]
        exact congrArg (· + _) (zero_mul _)
    · have hout : position ∉ left.positions := fun hother => hdisjoint hother hin
      have hown := @heads_concat_right _ read _ _ _ hdisjoint (right.followers_subset position)
      rw [after, after_eq_zero hout, zero_mul, zero_add, followers_concat_right hout hin, hown,
        ihRight hright hin, decide_eq_decide.2 (mem_last_concat_right hout)]
  | alternation left right ihLeft ihRight =>
    obtain ⟨hleft, hright, hdisjoint⟩ := hdistinct.alternation
    rw [positions_alternation, List.mem_append] at hposition
    rcases hposition with hin | hin
    · have hout : position ∉ right.positions := fun hother => hdisjoint hin hother
      have hends : position ∈ (alternation left right).last ↔ position ∈ left.last := by
        rw [mem_last_alternation]
        exact or_iff_left fun hlast => hout (right.last_subset hlast)
      rw [after, after_eq_zero hout, add_zero, followers_alternation_left hin,
        heads_alternation_left hdisjoint (left.followers_subset position), ihLeft hleft hin,
        decide_eq_decide.2 hends]
    · have hout : position ∉ left.positions := fun hother => hdisjoint hother hin
      have hends : position ∈ (alternation left right).last ↔ position ∈ right.last := by
        rw [mem_last_alternation]
        exact or_iff_right fun hlast => hout (left.last_subset hlast)
      rw [after, after_eq_zero hout, zero_add, followers_alternation_right hout,
        heads_alternation_right hdisjoint (right.followers_subset position), ihRight hright hin,
        decide_eq_decide.2 hends]
  | star inner ih =>
    have hinner : position ∈ inner.positions := hposition
    rw [after, followers_star hinner, heads_star, last, ih hdistinct hposition, add_mul]
    by_cases hends : position ∈ inner.last
    · rw [if_pos hends, heads_union, decide_eq_true hends, add_mul, ← add_assoc]
      congr 1
      calc emptyIf true * (inner.language read)∗
          = (inner.language read)∗ := one_mul _
        _ = 1 + inner.heads read inner.first * (inner.language read)∗ :=
            kstar_of_eq_add (language_eq hdistinct)
    · rw [if_neg hends, decide_eq_false hends]
      exact congrArg (· + _) (zero_mul _)

end Distinct

end RegexAutomata.MarkedRegex
