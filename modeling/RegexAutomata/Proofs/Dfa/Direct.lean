import RegexAutomata.Proofs.Dfa.Log
import RegexAutomata.Proofs.Dfa.Walk
import RegexAutomata.Proofs.Exploration.Sets
import RegexAutomata.Proofs.Position.FollowTable
import RegexAutomata.Proofs.Position.TwoPasses

/-!
# The direct construction accepts the words of its tree

From a set of positions those words may be read that start at a position of the set and go on to the
end marker.  For the first positions these are the words of the tree, and a step of the construction
takes the first symbol away.  Whether another character has the same text as the end marker does not
matter: the end marker is told by its position, and nothing follows it.
-/

namespace RegexAutomata

namespace MarkedRegex

/-- What may be read from one of these positions on, before the end marker. -/
def remaining (marked : MarkedRegex) (finish : Position) (key : List Position) : Language String :=
  emptyIf (decide (finish ∈ key)) + marked.heads (fun _ value => value) key

variable {marked : MarkedRegex} {finish position : Position} {key set : List Position}

/-- Nothing is left to read where the end marker is reached. -/
theorem nil_mem_remaining : [] ∈ marked.remaining finish key ↔ finish ∈ key := by
  rw [remaining, Language.mem_add]
  constructor
  · rintro (hempty | ⟨position, -, value, -, rest, -, hnil⟩)
    · by_cases hfinish : finish ∈ key
      · exact hfinish
      · rw [decide_eq_false hfinish] at hempty
        exact hempty.elim
    · exact absurd hnil.symm (List.cons_ne_nil _ _)
  · intro hfinish
    rw [decide_eq_true hfinish]
    exact Or.inl rfl

/-- A word that is left starts at a position of the set, with the symbol there. -/
theorem cons_mem_remaining {symbol : String} {rest : List String} :
    symbol :: rest ∈ marked.remaining finish key ↔
      ∃ position ∈ key, (position, symbol) ∈ marked.leaves ∧
        rest ∈ marked.after (fun _ value => value) position := by
  rw [remaining, Language.mem_add]
  constructor
  · rintro (hempty | ⟨position, hposition, value, hleaf, tail, htail, hword⟩)
    · have hone := emptyIf_le_one _ hempty
      exact absurd hone (List.cons_ne_nil _ _)
    · cases hword
      exact ⟨position, hposition, hleaf, htail⟩
  · rintro ⟨position, hposition, hleaf, htail⟩
    exact Or.inr ⟨position, hposition, symbol, hleaf, rest, htail, rfl⟩

theorem mem_remaining {word : List String} :
    word ∈ marked.remaining finish key ↔
      ∃ position ∈ key, word ∈ marked.remaining finish [position] := by
  cases word with
  | nil => simp [nil_mem_remaining]
  | cons symbol rest => simp [cons_mem_remaining]

theorem remaining_eq {empty : Bool} (hfinish : finish ∉ marked.positions)
    (hset : set ⊆ marked.positions)
    (hkey : ∀ position, position ∈ key ↔ position ∈ set ∨ (empty = true ∧ position = finish)) :
    marked.remaining finish key = emptyIf empty + marked.heads (fun _ value => value) set := by
  have hends : decide (finish ∈ key) = empty := by
    have hout : finish ∉ set := fun hin => hfinish (hset hin)
    simp [hkey, hout]
  have hheads : marked.heads (fun _ value => value) key =
      marked.heads (fun _ value => value) set := by
    apply heads_of_forall
    intro position hposition
    rw [hkey]
    apply or_iff_left
    rintro ⟨-, rfl⟩
    exact hfinish hposition
  rw [remaining, hends, hheads]

section Ended

variable (hdistinct : (marked.ended finish).Distinct)

include hdistinct

theorem finish_not_mem : finish ∉ marked.positions := by
  intro hfinish
  exact hdistinct.concat.2.2 hfinish List.mem_cons_self

/-- From the first positions on the words of the expression may be read. -/
theorem remaining_first :
    marked.remaining finish (marked.ended finish).first =
      marked.language fun _ value => value := by
  rw [language_eq hdistinct.concat.1]
  apply remaining_eq (finish_not_mem hdistinct) marked.first_subset
  intro position
  cases hnullable : marked.nullable <;> simp [ended, first, hnullable]

/-- After a position may come what can be read from its followers on. -/
theorem remaining_followers (hposition : position ∈ marked.positions) :
    marked.remaining finish ((marked.ended finish).followers position) =
      marked.after (fun _ value => value) position := by
  rw [after_eq hdistinct.concat.1 hposition]
  apply remaining_eq (finish_not_mem hdistinct) (marked.followers_subset position)
  intro other
  rw [ended, followers_concat_left hposition]
  split
  · next hlast => simp [first, hlast, or_comm]
  · next hlast => simp [hlast]

theorem followers_finish : (marked.ended finish).followers finish = [] := by
  rw [ended, followers_concat_right (finish_not_mem hdistinct) List.mem_cons_self, followers_leaf]

/-- What is read first takes a word to the followers of its position. -/
theorem cons_mem_remaining_iff {symbol : String} {rest : List String} :
    symbol :: rest ∈ marked.remaining finish key ↔ ∃ before ∈ key,
      (before, symbol) ∈ (marked.ended finish).leaves ∧
        rest ∈ marked.remaining finish ((marked.ended finish).followers before) := by
  rw [cons_mem_remaining]
  constructor
  · rintro ⟨before, hbefore, hleaf, hrest⟩
    refine ⟨before, hbefore, List.mem_append_left _ hleaf, ?_⟩
    rwa [remaining_followers hdistinct (mem_positions_of_mem_leaves hleaf)]
  · rintro ⟨before, hbefore, hleaf, hrest⟩
    rcases List.mem_append.1 hleaf with hin | hmarker
    · rw [remaining_followers hdistinct (mem_positions_of_mem_leaves hin)] at hrest
      exact ⟨before, hbefore, hin, hrest⟩
    · obtain rfl : before = finish := congrArg Prod.fst (List.mem_singleton.1 hmarker)
      rw [followers_finish hdistinct] at hrest
      obtain ⟨_, hnone, -⟩ := mem_remaining.1 hrest
      exact absurd hnone List.not_mem_nil

end Ended

theorem first_within (marked : MarkedRegex) :
    ∀ position ∈ marked.first, position ∈ marked.positions.toFinset :=
  fun _ hposition => List.mem_toFinset.2 (marked.first_subset hposition)

/-- One position may follow another after the symbol of the latter. -/
def Follows (marked : MarkedRegex) (before : Int) (symbol : String) (after : Int) : Prop :=
  (before, symbol) ∈ marked.leaves ∧ after ∈ marked.followers before

/-- A word leads from a position to the end marker if it may be read from there on. -/
theorem threads_iff_mem_remaining (hdistinct : (marked.ended finish).Distinct)
    {word : List String} :
    Exploration.Threads (marked.ended finish).Follows position word finish ↔
      word ∈ marked.remaining finish [position] := by
  induction word generalizing position with
  | nil => simp [Exploration.Threads, nil_mem_remaining, eq_comm]
  | cons symbol rest ih =>
    rw [cons_mem_remaining_iff hdistinct]
    constructor
    · rintro ⟨middle, ⟨hleaf, hfollows⟩, hrest⟩
      exact ⟨position, List.mem_cons_self, hleaf, mem_remaining.2 ⟨middle, hfollows, ih.1 hrest⟩⟩
    · rintro ⟨before, hbefore, hleaf, hrest⟩
      obtain rfl := List.mem_singleton.1 hbefore
      obtain ⟨middle, hfollows, hmiddle⟩ := mem_remaining.1 hrest
      exact ⟨middle, ⟨hleaf, hfollows⟩, ih.2 hmiddle⟩

/-- The words that lead from a first position to the end marker are those of the expression. -/
theorem exists_threads_iff (hdistinct : (marked.ended finish).Distinct) {word : List String} :
    (∃ position ∈ (marked.ended finish).first,
        Exploration.Threads (marked.ended finish).Follows position word finish) ↔
      word ∈ marked.unmarked.language := by
  rw [← language_unmarked, ← remaining_first hdistinct, mem_remaining]
  simp only [threads_iff_mem_remaining hdistinct]

end MarkedRegex

namespace FollowTable

open Exploration MarkedRegex

section Marked

variable {marked : MarkedRegex} {finish : Position}
  (hdistinct : (marked.ended finish).Distinct)
  (hfinish : finish = (marked.ended finish).leaves.length)

include hdistinct hfinish

/-- A step of the construction collects the positions that may follow. -/
theorem collects_ofMarked :
    Collects (ofMarked (marked.ended finish)).step (ofMarked (marked.ended finish)).alphabet
      (marked.ended finish).Follows (marked.ended finish).positions.toFinset := by
  constructor
  · intro key hkey symbol _
    exact step_ofMarked hdistinct (fun position hposition =>
      List.mem_toFinset.1 (hkey position hposition)) symbol
  · rintro before hbefore symbol after ⟨hleaf, hfollows⟩
    refine mem_alphabet_ofMarked.2 ⟨before, hleaf, fun hend => ?_⟩
    rw [hend, ← hfinish, followers_finish hdistinct] at hfollows
    exact absurd hfollows List.not_mem_nil
  · rintro before hbefore symbol after ⟨hleaf, hfollows⟩
    exact List.mem_toFinset.2 (followers_subset _ before hfollows)

end Marked

/-- Without a limit the search comes to its end and goes through sets of positions only, and the
construction makes of the table what the search finds. -/
theorem run_ofMarked {marked : MarkedRegex} {finish : Position}
    (hdistinct : (marked.ended finish).Distinct)
    (hfinish : finish = (marked.ended finish).leaves.length) {table : FollowTable}
    (htable : table = ofMarked (marked.ended finish)) :
    ∃ exploration, run table.step none table.alphabet (Nat.pow 2 table.follow.length + 2)
        table.first = .ok exploration ∧
      Complete table.step table.alphabet table.first exploration ∧
      (∀ number key, exploration.found.key? number = some key →
        key ⊆ (marked.ended finish).positions) ∧
      table.direct none = .ok (Dfa.ofExploration exploration table.alphabet table.stateOf,
        .initial table.first ::
          TraceStep.allEntries (marked.ended finish) table.alphabet 0 exploration.entries) := by
  have hcollects := collects_ofMarked hdistinct hfinish
  have hascending := (marked.ended finish).ascending_first
  have hwithin := (marked.ended finish).first_within
  have hfuel : 2 ^ (marked.ended finish).positions.toFinset.card ≤
      Nat.pow 2 (marked.ended finish).follow.length + 2 := by
    have hlength : (marked.ended finish).follow.length =
        (marked.ended finish).positions.length := by
      rw [← keys_follow, List.length_map]
    calc 2 ^ (marked.ended finish).positions.toFinset.card
        ≤ 2 ^ (marked.ended finish).follow.length := by
          rw [hlength]
          exact Nat.pow_le_pow_right (by decide) (List.toFinset_card_le _)
      _ ≤ Nat.pow 2 (marked.ended finish).follow.length + 2 := Nat.le_add_right _ _
  obtain ⟨exploration, hrun, hcomplete⟩ := hcollects.run_complete hascending hwithin hfuel
  have hkeys : ∀ number key, exploration.found.key? number = some key →
      key ⊆ (marked.ended finish).positions := by
    intro number key hkey position hposition
    have hreachable := hcomplete.sound number key hkey
    have hinside := (hcollects.of_reachable hascending hwithin hreachable).2 position hposition
    exact List.mem_toFinset.1 hinside
  subst htable
  refine ⟨exploration, hrun, hcomplete, hkeys, ?_⟩
  have hsearch : run (ofMarked (marked.ended finish)).step none
      (ofMarked (marked.ended finish)).alphabet
      (Nat.pow 2 (ofMarked (marked.ended finish)).follow.length + 2)
      (ofMarked (marked.ended finish)).first = .ok exploration := hrun
  rw [direct_eq_search (first_ne_nil _), hsearch]
  simp only [bind, Except.bind, TraceStep.ofExploration_ofMarked hdistinct hkeys,
    hcomplete.expanded_eq_entries]
  rfl

/-- Unless there is a limit, the construction succeeds. -/
theorem direct_ofMarked {marked : MarkedRegex} {finish : Position}
    (hdistinct : (marked.ended finish).Distinct)
    (hfinish : finish = (marked.ended finish).leaves.length) {table : FollowTable}
    (htable : table = ofMarked (marked.ended finish)) :
    ∃ exploration trace, Complete table.step table.alphabet table.first exploration ∧
      table.direct none =
        .ok (Dfa.ofExploration exploration table.alphabet table.stateOf, trace) := by
  obtain ⟨exploration, -, hcomplete, -, hdirect⟩ := run_ofMarked hdistinct hfinish htable
  exact ⟨exploration, _, hcomplete, hdirect⟩

end FollowTable

namespace Regex

open MarkedRegex FollowTable

/-- The direct construction succeeds for a tree of known nodes, and its automaton says of every word
whether it belongs to the tree. -/
theorem direct_acceptsWord {regex : Regex} (hknown : regex.isKnown) :
    ∃ dfa trace, regex.direct none = .ok (dfa, trace) ∧ ∀ word,
      ∃ answer, dfa.acceptsWord word = .ok answer ∧ (answer = true ↔ word ∈ regex.language) := by
  obtain ⟨marked, finish, hmarked, rfl, hpositions, hfinish⟩ := marked_eq hknown
  have hdistinct : (marked.ended finish).Distinct := by
    rw [Distinct, hpositions]
    exact nodup_consecutive 0 _
  obtain ⟨exploration, trace, hcomplete, hdirect⟩ := direct_ofMarked hdistinct hfinish rfl
  refine ⟨_, trace, (direct_of_marked hmarked none).trans hdirect, fun word => ?_⟩
  have htransitions : ∀ number key table,
      ((ofMarked (marked.ended finish)).stateOf number key table).transitions = table :=
    fun _ _ _ => rfl
  have haccepting : ∀ number key table,
      ((ofMarked (marked.ended finish)).stateOf number key table).accepting =
        key.contains (ofMarked (marked.ended finish)).endPosition :=
    fun _ _ _ => rfl
  obtain ⟨answer, hanswer, htrue⟩ :=
    Dfa.acceptsWord_ofExploration hcomplete htransitions haccepting word
  refine ⟨answer, hanswer, htrue.trans ?_⟩
  have hend : (ofMarked (marked.ended finish)).endPosition = finish := hfinish.symm
  simp only [hend, List.contains_iff_mem]
  rw [← exists_threads_iff hdistinct]
  exact (collects_ofMarked hdistinct hfinish).exists_leads_mem_iff (first_within _)

/-- What the direct construction makes of a tree, it makes of a complete search through the
positions of the numbered tree. -/
theorem search_of_direct {regex : Regex} {dfa : Dfa} {trace : List TraceStep}
    (hknown : regex.isKnown) (hmade : regex.direct none = .ok (dfa, trace)) :
    ∃ (marked : MarkedRegex) (finish : Position) (table : FollowTable)
        (exploration : Exploration (List Position)), regex.marked = .ok (marked.ended finish) ∧
      marked.unmarked = regex ∧ (marked.ended finish).Distinct ∧
      finish = (marked.ended finish).leaves.length ∧ table = ofMarked (marked.ended finish) ∧
      Exploration.run table.step none table.alphabet (Nat.pow 2 table.follow.length + 2)
        table.first = .ok exploration ∧
      Exploration.Complete table.step table.alphabet table.first exploration ∧
      dfa = Dfa.ofExploration exploration table.alphabet table.stateOf := by
  obtain ⟨marked, finish, hmarked, hregex, hpositions, hfinish⟩ := marked_eq hknown
  have hdistinct := distinct_of_consecutive hpositions
  obtain ⟨exploration, hrun, hcomplete, -, hdirect⟩ := run_ofMarked hdistinct hfinish rfl
  rw [direct_of_marked hmarked] at hmade
  exact ⟨marked, finish, _, exploration, hmarked, hregex, hdistinct, hfinish, rfl, hrun, hcomplete,
    congrArg Prod.fst (Except.ok.inj (hmade.symm.trans hdirect))⟩

/-- Every text is accepted that is a word of the tree, and every other text is rejected. -/
theorem direct_accepts_iff {regex : Regex} (hknown : regex.isKnown) :
    ∃ dfa trace, regex.direct none = .ok (dfa, trace) ∧ ∀ text,
      (dfa.accepts text = .ok true ↔ symbolsOf text ∈ regex.language) ∧
      (dfa.accepts text = .ok false ↔ symbolsOf text ∉ regex.language) := by
  obtain ⟨dfa, trace, hdirect, haccepts⟩ := direct_acceptsWord hknown
  refine ⟨dfa, trace, hdirect, fun text => ?_⟩
  obtain ⟨answer, hanswer, htrue⟩ := haccepts (symbolsOf text)
  rw [dfa.accepts_eq_acceptsWord, hanswer, ← htrue]
  cases answer <;> simp

theorem direct_accepts_repeated_marker :
    (Regex.concat (.star (.char "#")) (.char "a")).isKnown ∧
      ∃ dfa trace, (Regex.concat (.star (.char "#")) (.char "a")).direct none = .ok (dfa, trace) ∧
        ∀ text,
          (dfa.accepts text = .ok true ↔
            symbolsOf text ∈ (Regex.concat (.star (.char "#")) (.char "a")).language) ∧
          (dfa.accepts text = .ok false ↔
            symbolsOf text ∉ (Regex.concat (.star (.char "#")) (.char "a")).language) :=
  ⟨rfl, direct_accepts_iff rfl⟩

end Regex
end RegexAutomata
