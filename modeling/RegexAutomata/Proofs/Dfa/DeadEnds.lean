import RegexAutomata.Proofs.Dfa.Alphabet
import RegexAutomata.Proofs.Position.Rows
import RegexAutomata.Proofs.Position.TwoPasses

/-!
# Nothing but the end marker leads nowhere

A position deep in a tree may be last in many parts around it, and gets its followers only where the
widest of them is repeated or continued.  With the end marker after the whole tree this happens to
every position but the end position.  So a tree has first positions, and the direct construction
from it finds nothing to go on with only where the end position stands alone.
-/

namespace RegexAutomata

open Exploration

/-- The end position is followed by nothing, and every other position by some position. -/
structure Annotated.LeadsOn (annotated : Annotated) : Prop where
  goes_on : ∀ position ∈ annotated.follow.map Prod.fst, position ≠ annotated.table.endPosition →
    ∃ followers, annotated.table.followersOf position = .ok followers ∧ followers ≠ []
  ends : annotated.table.followersOf annotated.table.endPosition = .ok []

/-- The automaton has states, and the log does not say that it has none.  A transition leads nowhere
only by the symbol of the end marker and from the end position alone. -/
structure TraceStep.EndsAt (finish : Position) (dfa : Dfa) (trace : List TraceStep) : Prop where
  isEmpty_eq : dfa.isEmpty = false
  states_ne : dfa.states ≠ #[]
  empty_not_mem : .empty ∉ trace
  of_none : ∀ number symbol contributing result fresh,
    .transition number symbol contributing result none fresh ∈ trace →
      symbol = Regex.endMarker ∧ contributing = [finish]

namespace MarkedRegex

variable {marked : MarkedRegex} {finish position : Position} {key : List Position}
  {symbol : String} (hdistinct : (marked.ended finish).Distinct)

include hdistinct

/-- Words that pass a position of the tree go on to the end marker. -/
theorem followers_ne_nil (hposition : position ∈ marked.positions) :
    (marked.ended finish).followers position ≠ [] := by
  obtain ⟨rest, hrest⟩ := marked.exists_mem_after (fun _ value => value) hposition
  rw [← remaining_followers hdistinct hposition] at hrest
  obtain ⟨next, hnext, -⟩ := mem_remaining.1 hrest
  exact List.ne_nil_of_mem hnext

theorem followers_eq_nil_iff (hposition : position ∈ (marked.ended finish).positions) :
    (marked.ended finish).followers position = [] ↔ position = finish := by
  constructor
  · intro hnil
    rcases mem_positions_ended.1 hposition with hinner | hmarker
    · exact absurd hnil (followers_ne_nil hdistinct hinner)
    · exact hmarker
  · rintro rfl
    exact followers_finish hdistinct

/-- Positions that carry a symbol and are followed by nothing are the end position alone. -/
theorem carrying_eq_singleton (hkey : key.Pairwise (· < ·))
    (hinside : key ⊆ (marked.ended finish).positions)
    (hsome : (marked.ended finish).carrying key symbol ≠ [])
    (hends : ∀ position ∈ (marked.ended finish).carrying key symbol,
      (marked.ended finish).followers position = []) :
    symbol = Regex.endMarker ∧ (marked.ended finish).carrying key symbol = [finish] := by
  have hall : ∀ position ∈ (marked.ended finish).carrying key symbol, position = finish := by
    intro position hposition
    have hin := hinside (carrying_subset _ key symbol hposition)
    exact (followers_eq_nil_iff hdistinct hin).1 (hends position hposition)
  obtain ⟨position, hcarrying⟩ := List.exists_mem_of_ne_nil _ hsome
  obtain rfl := hall position hcarrying
  constructor
  · rcases List.mem_append.1 (mem_carrying.1 hcarrying).2 with hinner | hmarker
    · exact absurd (mem_positions_of_mem_leaves hinner) (finish_not_mem hdistinct)
    · exact congrArg Prod.snd (List.mem_singleton.1 hmarker)
  · have hascending : ((marked.ended position).carrying key symbol).Pairwise (· < ·) :=
      hkey.filter _
    refine hascending.eq_of_mem_iff (List.pairwise_singleton _ _) fun other => ?_
    rw [List.mem_singleton]
    exact ⟨hall other, fun hsame => hsame ▸ hcarrying⟩

end MarkedRegex

namespace FollowTable

open MarkedRegex TraceStep

section Search

variable {marked : MarkedRegex} {finish : Position} {exploration : Exploration (List Position)}
  (hdistinct : (marked.ended finish).Distinct)
  (hfinish : finish = (marked.ended finish).leaves.length)
  (hcomplete : Complete (ofMarked (marked.ended finish)).step
    (ofMarked (marked.ended finish)).alphabet (marked.ended finish).first exploration)

include hdistinct hfinish hcomplete

/-- An entry without a target comes from a set where no position that carries the symbol is
followed by any. -/
theorem of_transition_none {number : Nat} {symbol : String} {contributing result : List Position}
    {fresh : Bool}
    (hstep : .transition number symbol contributing result none fresh ∈
      TraceStep.initial (marked.ended finish).first ::
        allEntries (marked.ended finish) (ofMarked (marked.ended finish)).alphabet 0
          exploration.entries) :
    symbol ∈ (ofMarked (marked.ended finish)).alphabet ∧ symbol = Regex.endMarker ∧
      contributing = [finish] := by
  have hcollects := collects_ofMarked hdistinct hfinish
  have hlater := List.mem_of_ne_of_mem TraceStep.noConfusion hstep
  obtain ⟨⟨key, row⟩, hentry, own, hstate | hrowEntry⟩ := exists_of_mem_allEntries hlater
  · cases hstate
  obtain ⟨other, hsymbol, hcarrying, hmade⟩ := exists_of_mem_rowEntries hrowEntry
  obtain ⟨-, rfl, rfl, -, htarget, -⟩ := TraceStep.transition.inj hmade
  obtain ⟨index, hkey, hrowOf⟩ := hcomplete.of_mem_entries hentry
  obtain ⟨hascending, hinside⟩ := hcollects.of_reachable (marked.ended finish).ascending_first
    (marked.ended finish).first_within (hcomplete.sound index _ hkey)
  refine ⟨hsymbol, carrying_eq_singleton hdistinct hascending (fun position hposition =>
    List.mem_toFinset.1 (hinside position hposition)) hcarrying fun position hposition => ?_⟩
  -- a follower would be in the next set, and the row would lead there
  rw [List.eq_nil_iff_forall_not_mem]
  intro next hnext
  obtain ⟨hin, hleaf⟩ := mem_carrying.1 hposition
  obtain ⟨-, found, hfound, -⟩ := hcollects.exists_step hinside hin ⟨hleaf, hnext⟩
  obtain ⟨target, hnumber⟩ := hrowOf.exists_key hsymbol hfound
  have hleads := hrowOf.value?_eq_some_iff.2 ⟨hsymbol, found, hfound, hnumber⟩
  cases htarget.trans hleads

/-- What is made of a complete search ends at the end position. -/
theorem endsAt_ofExploration :
    EndsAt finish
      (Dfa.ofExploration exploration (ofMarked (marked.ended finish)).alphabet
        (ofMarked (marked.ended finish)).stateOf)
      (.initial (marked.ended finish).first ::
        allEntries (marked.ended finish) (ofMarked (marked.ended finish)).alphabet 0
          exploration.entries) := by
  constructor
  case isEmpty_eq =>
    rw [Dfa.isEmpty, Dfa.start_ofExploration hcomplete.first_key]
    rfl
  case states_ne =>
    have hsize := Numbering.lt_size_iff.2 ⟨_, hcomplete.first_key⟩
    rw [← Array.size_pos_iff, Dfa.size_states_ofExploration]
    exact hsize
  case empty_not_mem =>
    intro hempty
    exact empty_not_mem_allEntries (List.mem_of_ne_of_mem TraceStep.noConfusion hempty)
  case of_none =>
    intro number symbol contributing result fresh hstep
    exact (of_transition_none hdistinct hfinish hcomplete hstep).2

end Search

end FollowTable

namespace Annotated

open MarkedRegex

/-- A position in front of the end marker is followed by whatever some word goes on with, and every
word goes on at least to the marker. -/
theorem leadsOn_ofMarked {marked : MarkedRegex} {finish : Position}
    (hdistinct : (marked.ended finish).Distinct)
    (hfinish : finish = (marked.ended finish).leaves.length) :
    (ofMarked (marked.ended finish)).LeadsOn := by
  have hend : (ofMarked (marked.ended finish)).table.endPosition = finish := hfinish.symm
  have hfollowers : ∀ position ∈ (marked.ended finish).positions,
      (ofMarked (marked.ended finish)).table.followersOf position =
        .ok ((marked.ended finish).followers position) := by
    intro position hposition
    rw [table_ofMarked]
    exact FollowTable.followersOf_ofMarked hposition
  constructor
  case goes_on =>
    intro position hposition hother
    rw [hend] at hother
    have hin : position ∈ (marked.ended finish).positions := by
      rwa [← keys_follow]
    exact ⟨_, hfollowers position hin, mt (followers_eq_nil_iff hdistinct hin).1 hother⟩
  case ends =>
    have hin : finish ∈ (marked.ended finish).positions := mem_positions_ended.2 (Or.inr rfl)
    rw [hend, hfollowers finish hin, followers_finish hdistinct]

end Annotated

namespace Regex

open MarkedRegex FollowTable

/-- In an annotated tree of known nodes every position but the last is followed by some position.
Therefore, with any limit, what the direct construction makes has states, and its log has an entry
without a target only where the end position stands alone and the end marker is read.  There is no
such entry if no character of the tree has the text of the end marker. -/
theorem dead_ends_exact {regex : Regex} (hknown : regex.isKnown) :
    ∃ annotated, regex.annotate = .ok annotated ∧ annotated.LeadsOn ∧
      (∀ limit, regex.direct limit = annotated.table.direct limit) ∧
      (∃ dfa trace, regex.direct none = .ok (dfa, trace)) ∧
      ∀ limit dfa trace, regex.direct limit = .ok (dfa, trace) →
        TraceStep.EndsAt annotated.table.endPosition dfa trace ∧
        (endMarker ∉ regex.values → ∀ number symbol contributing result fresh,
          .transition number symbol contributing result none fresh ∉ trace) := by
  obtain ⟨marked, finish, hmarked, rfl, hpositions, hfinish⟩ := marked_eq hknown
  have hdistinct := distinct_of_consecutive hpositions
  have hannotate := annotate_of_marked hmarked
  have htable := Annotated.table_ofMarked (marked.ended finish)
  have hdirect : ∀ limit, marked.unmarked.direct limit =
      (Annotated.ofMarked (marked.ended finish)).table.direct limit := by
    intro limit
    rw [direct, hannotate]
    rfl
  obtain ⟨exploration, -, hcomplete, -, hmade⟩ := run_ofMarked hdistinct hfinish rfl
  refine ⟨_, hannotate, Annotated.leadsOn_ofMarked hdistinct hfinish, hdirect, ?_, ?_⟩
  · rw [hdirect, htable]
    exact ⟨_, _, hmade⟩
  · intro limit dfa trace hlimited
    rw [hdirect, htable] at hlimited
    obtain ⟨rfl, rfl⟩ := Prod.mk.inj (FollowTable.direct_unique (first_ne_nil _) hmade hlimited)
    have hend : (ofMarked (marked.ended finish)).endPosition = finish := hfinish.symm
    rw [htable, hend]
    refine ⟨endsAt_ofExploration hdistinct hfinish hcomplete, ?_⟩
    intro habsent number symbol contributing result fresh hstep
    obtain ⟨hsymbol, rfl, -⟩ := of_transition_none hdistinct hfinish hcomplete hstep
    rw [alphabet_ofMarked_ended hdistinct hfinish, mem_alphabet] at hsymbol
    exact habsent hsymbol

/-- A character with the text of the end marker, repeated before another one. -/
def repeatedMarker : Regex :=
  .concat (.star (.char endMarker)) (.char "a")

theorem dead_ends_exact_repeatedMarker :
    repeatedMarker.isKnown ∧
    ∃ annotated, repeatedMarker.annotate = .ok annotated ∧ annotated.LeadsOn ∧
      (∀ limit, repeatedMarker.direct limit = annotated.table.direct limit) ∧
      (∃ dfa trace, repeatedMarker.direct none = .ok (dfa, trace)) ∧
      ∀ limit dfa trace, repeatedMarker.direct limit = .ok (dfa, trace) →
        TraceStep.EndsAt annotated.table.endPosition dfa trace ∧
        (endMarker ∉ repeatedMarker.values → ∀ number symbol contributing result fresh,
          .transition number symbol contributing result none fresh ∉ trace) :=
  ⟨rfl, dead_ends_exact rfl⟩

/-- The end marker is read at the end position, after the whole tree. -/
example : (repeatedMarker.direct none).map (fun made => made.2.getLast?) =
    .ok (some (.transition 1 endMarker [3] [] none false)) := by
  decide +kernel

end Regex
end RegexAutomata
