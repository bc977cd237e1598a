import RegexAutomata.Proofs.Dfa.Determinization
import RegexAutomata.Proofs.Dfa.Homomorphism
import RegexAutomata.Proofs.Dfa.Limit
import RegexAutomata.Proofs.Nfa.Assembled
import RegexAutomata.Proofs.Nfa.Stations
import RegexAutomata.Proofs.Position.Rows
import Std.Data.String.ToInt

/-!
# The direct automaton is an image of the other one

Each position waits at a state of the assembled automaton: a character at its station, the end
marker at the last state.  A word leads to a position in the direct construction exactly if it leads
to the state where the position waits.  So a set of states determines a set of positions, and this
maps the automaton of the construction by sets of states onto the direct one.
-/

namespace RegexAutomata

open Exploration

namespace MarkedRegex

/-- The positions of a tree and the states at which they wait, the end marker last. -/
def stops (marked : MarkedRegex) (finish : Position) : List (Position × StateNumber) :=
  (Fragment.stations 0 marked).map (fun station => (station.position, station.place)) ++
    [(finish, ((Fragment.exit marked.unmarked : Nat) : Int))]

/-- The positions that wait at one of these states. -/
def waiting (marked : MarkedRegex) (finish : Position) (key : List StateNumber) : List Position :=
  Ascending.ofList (((marked.stops finish).filter fun stop => stop.2 ∈ key).map Prod.fst)

variable {marked : MarkedRegex} {finish position : Position} {place : StateNumber}
  {key : List StateNumber} {word : List String}

theorem mem_stops : (position, place) ∈ marked.stops finish ↔
    (∃ station ∈ Fragment.stations 0 marked,
      station.position = position ∧ station.place = place) ∨
      (position = finish ∧ place = (Fragment.exit marked.unmarked : Nat)) := by
  simp [stops]

theorem mem_waiting : position ∈ marked.waiting finish key ↔
    ∃ place ∈ key, (position, place) ∈ marked.stops finish := by
  simp [waiting, and_comm]

theorem exists_mem_stops (hposition : position ∈ (marked.ended finish).positions) :
    ∃ place, (position, place) ∈ marked.stops finish := by
  rcases mem_positions_ended.1 hposition with hown | hfinish
  · rw [positions, ← Fragment.map_stations 0 marked, List.map_map, List.mem_map] at hown
    obtain ⟨station, hstation, hequal⟩ := hown
    exact ⟨station.place, mem_stops.2 (Or.inl ⟨station, hstation, hequal, rfl⟩)⟩
  · exact ⟨_, mem_stops.2 (Or.inr ⟨hfinish, rfl⟩)⟩

theorem repr_injective : Function.Injective Int.repr :=
  fun _ _ hequal => Int.repr_injective hequal

theorem repr_ne_epsilon (position : Position) : position.repr ≠ epsilon := by
  intro hequal
  have hnumber : epsilon.isInt = true := hequal ▸ Int.isInt_repr position
  rcases String.isInt_iff.1 hnumber with hdigits | ⟨rest, hsign, -⟩
  · obtain ⟨-, hdigits, -⟩ := String.isNat_iff.1 hdigits
    exact absurd (hdigits 'ε' (by simp [epsilon])) (by decide)
  · have hcharacters := congrArg String.toList hsign
    simp [epsilon] at hcharacters

section Ended

variable (hdistinct : (marked.ended finish).Distinct) (hvalues : epsilon ∉ marked.unmarked.values)

include hdistinct hvalues

/-- A word leads to a position exactly if it leads to the state where the position waits. -/
theorem exists_threads_iff_trail (hstop : (position, place) ∈ marked.stops finish) :
    (∃ before ∈ (marked.ended finish).first,
        Threads (marked.ended finish).Follows before word position) ↔
      Trail (Fragment.Edge 0 marked.unmarked) 0 word place := by
  have hmarked := hdistinct.concat.1
  rcases mem_stops.1 hstop with ⟨station, hstation, rfl, rfl⟩ | ⟨rfl, rfl⟩
  · have hposition : station.position ∈ marked.positions :=
      mem_positions_of_mem_leaves (Fragment.mem_leaves_of_mem_stations hstation)
    rw [exists_threads_ended_iff hdistinct hposition,
      exists_threads_first_iff repr_injective hmarked hposition]
    exact (Fragment.trail_station_iff hmarked hvalues repr_injective repr_ne_epsilon
      hstation).symm
  · have hspells := Fragment.spells_language marked.isKnown_unmarked hvalues 0 word
    rw [Nat.zero_add] at hspells
    exact (exists_threads_iff hdistinct).trans hspells.symm

/-- The positions that wait at the states to which a word leads are those to which it leads. -/
theorem mem_waiting_iff
    (hkey : ∀ id, id ∈ key ↔ Trail (Fragment.Edge 0 marked.unmarked) 0 word id) :
    position ∈ marked.waiting finish key ↔ ∃ before ∈ (marked.ended finish).first,
      Threads (marked.ended finish).Follows before word position := by
  rw [mem_waiting]
  constructor
  · rintro ⟨place, hplace, hstop⟩
    exact (exists_threads_iff_trail hdistinct hvalues hstop).2 ((hkey place).1 hplace)
  · rintro ⟨before, hbefore, hthreads⟩
    have hposition := mem_positions_of_threads ((marked.ended finish).first_subset hbefore) hthreads
    obtain ⟨place, hstop⟩ := exists_mem_stops hposition
    exact ⟨place, (hkey place).2
      ((exists_threads_iff_trail hdistinct hvalues hstop).1 ⟨before, hbefore, hthreads⟩), hstop⟩

omit hdistinct in
/-- From every state silent moves lead to one at which a position waits. -/
theorem exists_stop {id : StateNumber} (hid : Fragment.Within 0 marked.unmarked id) :
    ∃ position place, (position, place) ∈ marked.stops finish ∧
      Trail (Fragment.Edge 0 marked.unmarked) id [] place := by
  obtain ⟨rest, htrail⟩ := Fragment.drains marked.isKnown_unmarked 0 id hid
  rw [Nat.zero_add] at htrail
  cases rest with
  | nil => exact ⟨finish, _, mem_stops.2 (Or.inr ⟨rfl, rfl⟩), htrail⟩
  | cons symbol rest =>
    obtain ⟨before, after, hbefore, hsymbol, hread, -⟩ := htrail.exists_of_cons
    rw [← renamed_value, Fragment.edge_renamed (fun _ value => value)
      (value_ne_epsilon hvalues)] at hread
    obtain ⟨station, hstation, rfl, -⟩ := hread.resolve_right fun hnone => hsymbol hnone.1
    exact ⟨station.position, station.place,
      mem_stops.2 (Or.inl ⟨station, hstation, rfl, rfl⟩), hbefore⟩

/-- A word leads to some position exactly if it leads to some state. -/
theorem exists_threads_iff_exists_trail :
    (∃ position, ∃ before ∈ (marked.ended finish).first,
        Threads (marked.ended finish).Follows before word position) ↔
      ∃ id, Trail (Fragment.Edge 0 marked.unmarked) 0 word id := by
  constructor
  · rintro ⟨position, before, hbefore, hthreads⟩
    have hposition := mem_positions_of_threads ((marked.ended finish).first_subset hbefore) hthreads
    obtain ⟨place, hstop⟩ := exists_mem_stops hposition
    exact ⟨place,
      (exists_threads_iff_trail hdistinct hvalues hstop).1 ⟨before, hbefore, hthreads⟩⟩
  · rintro ⟨id, htrail⟩
    have hwithin := Fragment.within_of_trail marked.isKnown_unmarked
      (Fragment.within_start marked.isKnown_unmarked) htrail
    obtain ⟨position, place, hstop, hrest⟩ := exists_stop hvalues hwithin
    have hplace := htrail.append hrest
    rw [List.append_nil] at hplace
    exact ⟨position, (exists_threads_iff_trail hdistinct hvalues hstop).2 hplace⟩

/-- The end marker waits where the automaton accepts. -/
theorem finish_mem_waiting_iff {nfa : Nfa} (hnfa : Nfa.ofRegex marked.unmarked = .ok nfa)
    (hkey : ∀ id, id ∈ key ↔ Trail (Fragment.Edge 0 marked.unmarked) 0 word id) :
    finish ∈ marked.waiting finish key ↔ ∃ id ∈ key, nfa.isAccepting id = true := by
  have hknown := marked.isKnown_unmarked
  have haccepting : ∀ id ∈ key,
      nfa.isAccepting id = true ↔ id = (Fragment.exit marked.unmarked : Nat) := by
    intro id hid
    exact Nfa.isAccepting_ofRegex hknown hnfa
      (Fragment.within_of_trail hknown (Fragment.within_start hknown) ((hkey id).1 hid))
  have hstop : (finish, ((Fragment.exit marked.unmarked : Nat) : Int)) ∈ marked.stops finish :=
    mem_stops.2 (Or.inr ⟨rfl, rfl⟩)
  rw [mem_waiting_iff hdistinct hvalues hkey, exists_threads_iff_trail hdistinct hvalues hstop,
    ← hkey]
  constructor
  · exact fun hexit => ⟨_, hexit, (haccepting _ hexit).2 rfl⟩
  · rintro ⟨id, hid, haccepts⟩
    exact (haccepting id hid).1 haccepts ▸ hid

end Ended

end MarkedRegex

namespace Dfa

open MarkedRegex FollowTable

/-- Without a limit both constructions succeed, and the direct automaton is an image of the other
one. -/
theorem exists_homomorphism {marked : MarkedRegex} {finish : Position} {nfa : Nfa}
    (hdistinct : (marked.ended finish).Distinct)
    (hfinish : finish = (marked.ended finish).leaves.length)
    (hvalues : epsilon ∉ marked.unmarked.values) (hnfa : Nfa.ofRegex marked.unmarked = .ok nfa) :
    ∃ subset direct trace image, ofNfa nfa none = .ok subset ∧
      (ofMarked (marked.ended finish)).direct none = .ok (direct, trace) ∧
      Homomorphism subset direct image := by
  have hknown := marked.isKnown_unmarked
  obtain ⟨symbols, whole, first, exploration, hcollects, hascending, hwithin, hmem, hcomplete,
    hsubset⟩ := ofNfa_eq (Nfa.intact_ofRegex hknown hnfa)
  obtain ⟨others, trace, hothers, hdirect⟩ := direct_ofMarked hdistinct hfinish rfl
  have hstart : first ≠ [] := List.ne_nil_of_mem ((hmem nfa.start).2 (.nil _))
  have htrail : ∀ {word : List String} {id : Int}, (∃ before ∈ first,
      Threads nfa.Reads before word id) ↔ Trail (Fragment.Edge 0 marked.unmarked) 0 word id := by
    intro word id
    simp only [hmem]
    exact Nfa.threads_reads_iff.trans (Nfa.path_ofRegex hknown hnfa)
  have hleads := hcollects.leads_iff_exists_image hascending hwithin hstart
    (collects_ofMarked hdistinct hfinish) (marked.ended finish).ascending_first
    (marked.ended finish).first_within (first_ne_nil _)
    (fun key => Ascending.pairwise_ofList _)
    (fun word key hkey position =>
      mem_waiting_iff hdistinct hvalues fun id => (hkey id).trans htrail)
    (fun word => by
      simp only [htrail]
      exact exists_threads_iff_exists_trail hdistinct hvalues)
  have hagree : ∀ word key, Leads nfa.step symbols first word key →
      (marked.waiting finish key).contains (ofMarked (marked.ended finish)).endPosition =
        key.any nfa.isAccepting := by
    intro word key hword
    have hend : (ofMarked (marked.ended finish)).endPosition = finish := hfinish.symm
    rw [hend, Bool.eq_iff_iff, List.contains_iff_mem, List.any_eq_true]
    exact finish_mem_waiting_iff hdistinct hvalues hnfa fun id =>
      (hcollects.mem_of_leads hwithin hword id).trans htrail
  exact ⟨_, _, trace, _, hsubset, hdirect, homomorphism_ofExploration hcomplete hothers hleads
    (fun _ _ _ => rfl) (fun _ _ _ => rfl) (fun _ _ _ => rfl) (fun _ _ _ => rfl) hagree⟩

end Dfa

namespace Regex

open MarkedRegex

/-- The direct automaton of a tree is a homomorphic image of the one that is made by way of the
assembled automaton.  So it has no more states, and whatever limit the longer way keeps to, the
direct construction keeps to it too. -/
theorem direct_is_image {regex : Regex} (hknown : regex.isKnown)
    (hvalues : epsilon ∉ regex.values) :
    ∃ nfa subset direct trace, Nfa.ofRegex regex = .ok nfa ∧ Dfa.ofNfa nfa none = .ok subset ∧
      regex.direct none = .ok (direct, trace) ∧
      (∃ image, Dfa.Homomorphism subset direct image) ∧
      direct.states.size ≤ subset.states.size ∧
      ∀ limit made, Dfa.ofNfa nfa limit = .ok made →
        regex.direct limit = .ok (direct, trace) := by
  obtain ⟨marked, finish, hmarked, rfl, hpositions, hfinish⟩ := marked_eq hknown
  have hdistinct := distinct_of_consecutive hpositions
  have hnfa := Nfa.ofRegex_eq hknown
  obtain ⟨subset, direct, trace, image, hsubset, hdirect, himage⟩ :=
    Dfa.exists_homomorphism hdistinct hfinish hvalues hnfa
  have hmade : ∀ limit, marked.unmarked.direct limit =
      (FollowTable.ofMarked (marked.ended finish)).direct limit := Regex.direct_of_marked hmarked
  refine ⟨_, subset, direct, trace, hnfa, hsubset, (hmade none).trans hdirect, ⟨image, himage⟩,
    himage.size_le, fun limit made hlimited => ?_⟩
  rw [hmade]
  cases limit with
  | none => exact hdirect
  | some limit =>
    rw [Dfa.ofNfa_some hsubset, within_eq_ok_iff] at hlimited
    have hfits : (direct.states.size : Int) ≤ limit :=
      Int.le_trans (Int.ofNat_le.2 himage.size_le) hlimited.1
    rw [FollowTable.direct_some (first_ne_nil _) hdirect, within_of_le hfits]

/-- The words of two symbols that end with `abb`.  The direct automaton has a state less. -/
def endingTwice : Regex :=
  .concat (.concat (.concat (.star (.alternation (.char "a") (.char "b"))) (.char "a"))
    (.char "b")) (.char "b")

theorem direct_is_image_endingTwice :
    endingTwice.isKnown ∧ epsilon ∉ endingTwice.values ∧
      ∃ nfa subset direct trace, Nfa.ofRegex endingTwice = .ok nfa ∧
        Dfa.ofNfa nfa none = .ok subset ∧ endingTwice.direct none = .ok (direct, trace) ∧
        (∃ image, Dfa.Homomorphism subset direct image) ∧
        direct.states.size ≤ subset.states.size ∧
        ∀ limit made, Dfa.ofNfa nfa limit = .ok made →
          endingTwice.direct limit = .ok (direct, trace) :=
  ⟨rfl, by decide, direct_is_image rfl (by decide)⟩

end Regex
end RegexAutomata
