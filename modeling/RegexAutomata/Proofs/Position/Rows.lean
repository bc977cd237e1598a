import RegexAutomata.Proofs.Dfa.Direct
import RegexAutomata.Proofs.Position.Neighbours

/-!
# Rows of characters

Step by step, a row of characters leads to the positions that may come next.  A position is led to
exactly if the row stands before it at the front of some word.  The end marker adds one position
and changes nothing among the others.
-/

namespace RegexAutomata.MarkedRegex

open Exploration

variable {α : Type} {name : Position → α} {marked : MarkedRegex} {finish position final : Position}
  {set : List Position} {word : List String}

/-- A row leads from one of these positions to another if it stands between them in some word that
starts at the former. -/
theorem exists_threads_heads_iff (hname : Function.Injective name) (hdistinct : marked.Distinct)
    (hset : set ⊆ marked.positions) (hfinal : final ∈ marked.positions) :
    (∃ position ∈ set, Threads marked.Follows position word final) ↔
      ∃ row, row ⊆ marked.leaves ∧ row.map Prod.snd = word ∧ ∃ rest,
        row.map (fun leaf => name leaf.1) ++ name final :: rest ∈
          marked.heads (fun position _ => name position) set := by
  induction word generalizing set with
  | nil =>
    constructor
    · rintro ⟨_, hposition, rfl⟩
      obtain ⟨rest, hrest⟩ := exists_mem_after (fun position _ => name position) hfinal
      exact ⟨[], List.nil_subset _, rfl, rest,
        (cons_mem_heads_iff hname hset).2 ⟨hposition, hrest⟩⟩
    · rintro ⟨row, -, hrow, rest, hword⟩
      obtain rfl := List.map_eq_nil_iff.1 hrow
      exact ⟨final, ((cons_mem_heads_iff hname hset).1 hword).1, rfl⟩
  | cons symbol word ih =>
    have hafter : ∀ {position : Position} {row : List (Position × String)} {rest : List α},
        position ∈ marked.positions →
          (row.map (fun leaf => name leaf.1) ++ name final :: rest ∈
              marked.after (fun position _ => name position) position ↔
            row.map (fun leaf => name leaf.1) ++ name final :: rest ∈
              marked.heads (fun position _ => name position) (marked.followers position)) := by
      intro position row rest hposition
      rw [after_eq hdistinct hposition]
      cases row <;> exact cons_mem_add_heads_iff
    constructor
    · rintro ⟨position, hposition, middle, ⟨hleaf, hfollows⟩, hrest⟩
      obtain ⟨row, hrow, rfl, rest, hword⟩ :=
        (ih (marked.followers_subset position)).1 ⟨middle, hfollows, hrest⟩
      refine ⟨(position, symbol) :: row, List.cons_subset.2 ⟨hleaf, hrow⟩, rfl, rest, ?_⟩
      exact (cons_mem_heads_iff hname hset).2 ⟨hposition, (hafter (hset hposition)).2 hword⟩
    · rintro ⟨row, hrow, hvalues, rest, hword⟩
      obtain ⟨⟨position, _⟩, row, rfl, rfl, rfl⟩ := List.map_eq_cons_iff.1 hvalues
      rw [List.cons_subset] at hrow
      obtain ⟨hposition, htail⟩ := (cons_mem_heads_iff hname hset).1 hword
      obtain ⟨middle, hfollows, hrest⟩ := (ih (marked.followers_subset position)).2
        ⟨row, hrow.2, rfl, rest, (hafter (hset hposition)).1 htail⟩
      exact ⟨position, hposition, middle, ⟨hrow.1, hfollows⟩, hrest⟩

/-- A row leads from a first position to another one if it stands before the latter in some word. -/
theorem exists_threads_first_iff (hname : Function.Injective name) (hdistinct : marked.Distinct)
    (hfinal : final ∈ marked.positions) :
    (∃ position ∈ marked.first, Threads marked.Follows position word final) ↔
      ∃ row, row ⊆ marked.leaves ∧ row.map Prod.snd = word ∧ ∃ rest,
        row.map (fun leaf => name leaf.1) ++ name final :: rest ∈
          marked.language fun position _ => name position := by
  rw [exists_threads_heads_iff hname hdistinct marked.first_subset hfinal, language_eq hdistinct]
  refine exists_congr fun row => ?_
  cases row <;> simp only [List.map_cons, List.map_nil, List.cons_append, List.nil_append,
    cons_mem_add_heads_iff]

theorem mem_positions_of_threads (hposition : position ∈ marked.positions)
    (hthreads : Threads marked.Follows position word final) : final ∈ marked.positions := by
  induction word generalizing position with
  | nil =>
    obtain rfl : position = final := hthreads
    exact hposition
  | cons symbol rest ih =>
    obtain ⟨middle, ⟨-, hfollows⟩, hrest⟩ := hthreads
    exact ih (marked.followers_subset position hfollows) hrest

/-- The characters in between lead from a position to whatever comes after it in a word. -/
theorem exists_threads_of_after (hdistinct : marked.Distinct)
    (hposition : position ∈ marked.positions) {front rest : List Position}
    (hafter : front ++ final :: rest ∈ marked.wordsAfter position) :
    ∃ word, Threads marked.Follows position word final := by
  induction front generalizing position with
  | nil =>
    obtain ⟨hnext, -⟩ := (cons_mem_wordsAfter_iff hdistinct hposition).1 hafter
    obtain ⟨⟨_, value⟩, hleaf, rfl⟩ := List.mem_map.1 hposition
    exact ⟨[value], final, ⟨hleaf, hnext⟩, rfl⟩
  | cons next front ih =>
    obtain ⟨hnext, hrest⟩ := (cons_mem_wordsAfter_iff hdistinct hposition).1 hafter
    obtain ⟨word, hword⟩ := ih (marked.followers_subset position hnext) hrest
    obtain ⟨⟨_, value⟩, hleaf, rfl⟩ := List.mem_map.1 hposition
    exact ⟨value :: word, next, ⟨hleaf, hnext⟩, hword⟩

/-- Every position is led to from some first position. -/
theorem exists_threads_first (hdistinct : marked.Distinct) (hfinal : final ∈ marked.positions) :
    ∃ position ∈ marked.first, ∃ word, Threads marked.Follows position word final := by
  obtain ⟨rest, hrest⟩ := exists_mem_after (fun position _ => position) hfinal
  obtain ⟨front, hword⟩ := mem_wordsAfter_iff.1 hrest
  cases front with
  | nil => exact ⟨final, ((cons_mem_words_iff hdistinct).1 hword).1, [], rfl⟩
  | cons position front =>
    obtain ⟨hfirst, hafter⟩ := (cons_mem_words_iff hdistinct).1 hword
    exact ⟨position, hfirst,
      exists_threads_of_after hdistinct (marked.first_subset hfirst) hafter⟩

section Ended

theorem mem_positions_ended : position ∈ (marked.ended finish).positions ↔
    position ∈ marked.positions ∨ position = finish := by
  rw [ended, positions_concat, List.mem_append]
  exact or_congr_right List.mem_singleton

variable (hdistinct : (marked.ended finish).Distinct)

include hdistinct

theorem mem_first_ended_iff (hposition : position ∈ marked.positions) :
    position ∈ (marked.ended finish).first ↔ position ∈ marked.first := by
  have hfinish : position ≠ finish := fun hsame => finish_not_mem hdistinct (hsame ▸ hposition)
  cases hnullable : marked.nullable <;> simp [ended, first, hnullable, hfinish]

/-- The end marker changes nothing among the other positions. -/
theorem follows_ended_iff {next : Position} {symbol : String} (hnext : next ∈ marked.positions) :
    (marked.ended finish).Follows position symbol next ↔ marked.Follows position symbol next := by
  have hfinish : next ≠ finish := fun hsame => finish_not_mem hdistinct (hsame ▸ hnext)
  by_cases hposition : position ∈ marked.positions
  · have hleaf := mem_leaves_append_left hdistinct.concat.2.2 (List.Subset.refl _) position
      hposition symbol
    have hfollows : next ∈ (marked.ended finish).followers position ↔
        next ∈ marked.followers position := by
      rw [ended, followers_concat_left hposition]
      split <;> simp [first, hfinish]
    exact and_congr hleaf hfollows
  · have habsent : ∀ {value}, (position, value) ∉ marked.leaves :=
      fun hleaf => hposition (mem_positions_of_mem_leaves hleaf)
    refine iff_of_false ?_ fun hfollows => habsent hfollows.1
    rintro ⟨hleaf, hfollows⟩
    obtain hmarker := (List.mem_append.1 hleaf).resolve_left habsent
    obtain rfl : position = finish := congrArg Prod.fst (List.mem_singleton.1 hmarker)
    rw [followers_finish hdistinct] at hfollows
    exact List.not_mem_nil hfollows

/-- Nothing comes after the end marker. -/
theorem not_threads_finish (hfinal : final ∈ marked.positions) :
    ¬ Threads (marked.ended finish).Follows finish word final := by
  intro hthreads
  cases word with
  | nil =>
    obtain rfl : finish = final := hthreads
    exact finish_not_mem hdistinct hfinal
  | cons symbol rest =>
    obtain ⟨middle, ⟨-, hfollows⟩, -⟩ := hthreads
    rw [followers_finish hdistinct] at hfollows
    exact List.not_mem_nil hfollows

/-- Between two positions of the expression the end marker is never passed. -/
theorem threads_ended_iff (hfinal : final ∈ marked.positions) :
    Threads (marked.ended finish).Follows position word final ↔
      Threads marked.Follows position word final := by
  induction word generalizing position with
  | nil => exact Iff.rfl
  | cons symbol rest ih =>
    refine exists_congr fun middle => ?_
    by_cases hmiddle : middle ∈ marked.positions
    · exact and_congr (follows_ended_iff hdistinct hmiddle) ih
    · refine iff_of_false ?_ fun hthreads => hmiddle (marked.followers_subset _ hthreads.1.2)
      rintro ⟨⟨-, hfollows⟩, hthreads⟩
      have hended := (marked.ended finish).followers_subset _ hfollows
      obtain rfl := (mem_positions_ended.1 hended).resolve_left hmiddle
      exact not_threads_finish hdistinct hfinal hthreads

theorem exists_threads_ended_iff (hfinal : final ∈ marked.positions) :
    (∃ position ∈ (marked.ended finish).first,
        Threads (marked.ended finish).Follows position word final) ↔
      ∃ position ∈ marked.first, Threads marked.Follows position word final := by
  refine exists_congr fun position => ?_
  rw [threads_ended_iff hdistinct hfinal]
  by_cases hposition : position ∈ marked.positions
  · rw [mem_first_ended_iff hdistinct hposition]
  · refine iff_of_false ?_ fun hthreads => hposition (marked.first_subset hthreads.1)
    rintro ⟨hfirst, hthreads⟩
    have hended := (marked.ended finish).first_subset hfirst
    obtain rfl := (mem_positions_ended.1 hended).resolve_left hposition
    rw [← threads_ended_iff hdistinct hfinal] at hthreads
    exact not_threads_finish hdistinct hfinal hthreads

end Ended

end RegexAutomata.MarkedRegex
