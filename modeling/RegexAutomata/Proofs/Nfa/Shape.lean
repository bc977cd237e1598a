import RegexAutomata.Json.Report
import RegexAutomata.Proofs.Nfa.Crossing
import RegexAutomata.Proofs.Regex.Literals

/-!
# The shape of an assembled automaton

The fragment of each character, alternation and star brings two states of its own.  When it is
finished, the state at which it is left has no edge, and every other state has one edge that reads
a symbol, or one or two that read nothing.  The fragments around it then add edges only where no
edge was, so that the same holds of the whole.
-/

namespace RegexAutomata

namespace Nfa

/-- One edge that reads a symbol, or one or two that read nothing, and no other edges. -/
inductive State.Onward (state : State) : Prop where
  | reading (symbol : String) (target : StateNumber) (hsymbol : symbol ≠ epsilon)
      (hedges : state.edges = [(symbol, [target])])
  | silent (target : StateNumber) (hedges : state.edges = [(epsilon, [target])])
  | forking (first second : StateNumber) (hdistinct : first < second)
      (hedges : state.edges = [(epsilon, [first, second])])

variable {state : State}

theorem State.edges_link (state : State) (symbol : String) (target : StateNumber) :
    (state.link symbol target).edges =
      Table.alter symbol (fun known => Ascending.insert target (known.getD [])) state.edges := rfl

theorem State.onward_link (hedges : state.edges = []) (symbol : String) (target : StateNumber) :
    (state.link symbol target).Onward := by
  have hlinked : (state.link symbol target).edges = [(symbol, [target])] := by
    rw [State.edges_link, hedges]
    rfl
  by_cases hsymbol : symbol = epsilon
  · exact .silent target (hsymbol ▸ hlinked)
  · exact .reading symbol target hsymbol hlinked

theorem State.onward_link_link (hedges : state.edges = []) {first second : StateNumber}
    (hdistinct : first ≠ second) :
    ((state.link epsilon first).link epsilon second).Onward := by
  have hlinked : ((state.link epsilon first).link epsilon second).edges =
      [(epsilon, Ascending.insert second [first])] := by
    rw [State.edges_link, State.edges_link, hedges]
    rfl
  rcases lt_or_gt_of_ne hdistinct with hless | hgreater
  · refine .forking first second hless ?_
    rw [hlinked, Ascending.insert, if_neg (not_lt_of_gt hless), if_neg hdistinct.symm]
    rfl
  · refine .forking second first hgreater ?_
    rw [hlinked, Ascending.insert, if_pos hgreater]

end Nfa

namespace Arena

variable {gate : Nat} {before block : Arena}

/-- Of these states the one in a given place has no edges, and all others lead on. -/
structure Gated (gate : Nat) (block : Arena) : Prop where
  closed : ∀ state, block[gate]? = some state → state.edges = []
  onward : ∀ place state, block[place]? = some state → place ≠ gate → state.Onward

/-- Once the state without edges leads on too, all do. -/
theorem Gated.opened (hgated : Gated gate block) {change : Nfa.State → Nfa.State}
    (hchange : ∀ state, state.edges = [] → (change state).Onward) :
    ∀ state ∈ block.modify gate change, state.Onward := by
  intro state hstate
  obtain ⟨place, hplace⟩ := Array.mem_iff_getElem?.1 hstate
  rw [Array.getElem?_modify] at hplace
  split at hplace
  · next hgate =>
    subst hgate
    obtain ⟨old, hold, rfl⟩ := Option.map_eq_some_iff.1 hplace
    exact hchange old (hgated.closed old hold)
  · next hgate => exact hgated.onward place state hplace (Ne.symm hgate)

theorem Gated.append_left (hgated : Gated gate before) (hgate : gate < before.size)
    (hblock : ∀ state ∈ block, state.Onward) : Gated gate (before ++ block) where
  closed state hstate := by
    rw [Array.getElem?_append_left hgate] at hstate
    exact hgated.closed state hstate
  onward place state hstate hplace := by
    rw [Array.getElem?_append] at hstate
    split at hstate
    · exact hgated.onward place state hstate hplace
    · exact hblock state (Array.mem_of_getElem? hstate)

theorem Gated.append_right (hbefore : ∀ state ∈ before, state.Onward) (hgated : Gated gate block) :
    Gated (before.size + gate) (before ++ block) where
  closed state hstate := by
    rw [Array.getElem?_append_right (Nat.le_add_right _ _), Nat.add_sub_cancel_left] at hstate
    exact hgated.closed state hstate
  onward place state hstate hplace := by
    rw [Array.getElem?_append] at hstate
    split at hstate
    · exact hbefore state (Array.mem_of_getElem? hstate)
    · exact hgated.onward _ state hstate (by omega)

theorem modify_modify (block : Arena) (place : Nat) (first second : Nfa.State → Nfa.State) :
    (block.modify place first).modify place second = block.modify place (second ∘ first) := by
  apply Array.ext_getElem?
  intro index
  simp only [Array.getElem?_modify]
  split
  · rw [Option.map_map]
  · rfl

/-- Of the two states that a construction adds first, the second one waits without edges. -/
theorem gated_ends {change : Nfa.State → Nfa.State} {base : Nat}
    (hchange : (change { id := base }).Onward) :
    Gated 1 ((Fragment.ends base).modify 0 change) where
  closed state hstate := by
    rw [Array.getElem?_modify, if_neg Nat.zero_ne_one] at hstate
    exact Option.some.inj hstate ▸ rfl
  onward place state hstate hplace := by
    rcases place with - | - | place
    · exact Option.some.inj hstate ▸ hchange
    · exact absurd rfl hplace
    · rw [Array.getElem?_eq_none (by simp)] at hstate
      cases hstate

end Arena

namespace Fragment

open Arena Nfa.State

/-- Only the state at which a fragment is left has no edges, and all others lead on. -/
theorem gated {regex : Regex} (hknown : regex.isKnown) (base : Nat) :
    Gated (exit regex) (states base regex) := by
  induction regex generalizing base with
  | char value => exact gated_ends (onward_link rfl value _)
  | concat left right ihLeft ihRight =>
    simp only [Regex.isKnown, Bool.and_eq_true] at hknown
    have hleft := (ihLeft hknown.1 base).opened fun state hedges =>
      onward_link hedges epsilon (base + size left : Nat)
    have hwhole := Gated.append_right hleft (ihRight hknown.2 (base + size left))
    rwa [Array.size_modify, size_states] at hwhole
  | alternation left right ihLeft ihRight =>
    simp only [Regex.isKnown, Bool.and_eq_true] at hknown
    have hentries : ((base + 2 : Nat) : Int) ≠ (base + 2 + size left : Nat) := by
      have hexit := exit_lt_size hknown.1
      omega
    have hleft := (ihLeft hknown.1 (base + 2)).opened fun state hedges =>
      onward_link hedges epsilon (base + 1 : Nat)
    have hright := (ihRight hknown.2 (base + 2 + size left)).opened fun state hedges =>
      onward_link hedges epsilon (base + 1 : Nat)
    rw [states, modify_modify]
    exact (gated_ends (onward_link_link rfl hentries)).append_left (by simp)
      (forall_mem_append hleft hright)
  | star inner ih =>
    have htargets : ((base + 2 : Nat) : Int) ≠ (base + 1 : Nat) := by omega
    rw [states, modify_modify, modify_modify]
    refine (gated_ends (onward_link_link rfl htargets)).append_left (by simp) ?_
    exact (ih hknown (base + 2)).opened fun state hedges => onward_link_link hedges htargets
  | unknown kind mark => exact absurd hknown Bool.false_ne_true

/-- No edge leads to the state at which a fragment is entered. -/
theorem not_edge_start {base : Nat} {regex : Regex} (hknown : regex.isKnown) {source : Int}
    {symbol : String} : ¬ Edge base regex source symbol base := by
  induction regex generalizing base with
  | char value =>
    rw [edge_char]
    omega
  | concat left right ihLeft _ =>
    simp only [Regex.isKnown, Bool.and_eq_true] at hknown
    have hleft := exit_lt_size hknown.1
    rw [edge_concat hknown.1]
    rintro (hlink | hedge | hedge)
    · omega
    · exact ihLeft hknown.1 hedge
    · have hbounds := (within_of_edge hknown.2 hedge).2.1
      omega
  | alternation left right _ _ =>
    simp only [Regex.isKnown, Bool.and_eq_true] at hknown
    rw [edge_alternation hknown.1 hknown.2]
    rintro (hlink | hlink | hedge | hlink | hedge)
    · omega
    · omega
    · have hbounds := (within_of_edge hknown.1 hedge).2.1
      omega
    · omega
    · have hbounds := (within_of_edge hknown.2 hedge).2.1
      omega
  | star inner _ =>
    have hinner : inner.isKnown := hknown
    rw [edge_star hinner]
    rintro (hlink | hlink | hedge)
    · omega
    · omega
    · have hbounds := (within_of_edge hinner hedge).2.1
      omega
  | unknown kind mark => exact absurd hknown Bool.false_ne_true

end Fragment

namespace Regex

/-- How many nodes of the tree are characters, alternations or stars. -/
def pairs : Regex → Nat
  | char _ => 1
  | concat left right => left.pairs + right.pairs
  | alternation left right => 1 + left.pairs + right.pairs
  | star inner => 1 + inner.pairs
  | unknown _ _ => 0

theorem size_eq_two_mul_pairs (regex : Regex) : Fragment.size regex = 2 * regex.pairs := by
  induction regex with
  | char value => rfl
  | concat left right ihLeft ihRight => rw [Fragment.size, pairs, ihLeft, ihRight, Nat.mul_add]
  | alternation left right ihLeft ihRight =>
    rw [Fragment.size, pairs, ihLeft, ihRight]
    omega
  | star inner ih =>
    rw [Fragment.size, pairs, ih]
    omega
  | unknown kind mark => rfl

/-- The character is a literal or one of the signs of alternation and star. -/
def bringsPair (character : Char) : Bool :=
  character.isAlphanum || character == '|' || character == '*'

/-- Each character, alternation or star of the tree is written with one character of its own. -/
theorem Derives.countP_eq {level : Level} {text : List Char} {regex : Regex}
    (hderives : Derives level text regex) : text.countP bringsPair = regex.pairs := by
  induction hderives with
  | literal hliteral => simp [bringsPair, hliteral, pairs]
  | group _ ih =>
    rw [List.countP_cons_of_neg (by decide), List.countP_append, ih]
    rfl
  | atom _ ih => exact ih
  | star _ ih =>
    rw [List.countP_append, ih, pairs, Nat.add_comm]
    rfl
  | repetition _ ih => exact ih
  | juxtaposition _ _ ihLeft ihRight => rw [List.countP_append, ihLeft, ihRight, pairs]
  | concat _ _ ihLeft ihRight =>
    rw [List.countP_append, List.countP_cons_of_neg (by decide), ihLeft, ihRight, pairs]
  | sequence _ ih => exact ih
  | alternation _ _ ihLeft ihRight =>
    rw [List.countP_append, List.countP_cons_of_pos (by decide), ihLeft, ihRight, pairs]
    omega

end Regex

namespace Nfa

/-- One state is entered first and none leads back to it, one accepts and leads nowhere, and every
other state has one way on or two and lies between them. -/
structure Standard (nfa : Nfa) : Prop where
  ids : ∀ (place : Nat) (state : State), nfa.states[place]? = some state → state.id = place
  reported : ∃ reports, Arena.toJson nfa.states = .array reports ∧
    reports.map (·.member? "id") =
      (List.range nfa.states.size).map fun place => some (.natural place)
  start : ∃ place < nfa.states.size, nfa.start = (place : Nat)
  entered : ∀ state ∈ nfa.states, nfa.start ∉ state.allTargets
  finish : ∃ place state, nfa.states[place]? = some state ∧ nfa.finish = (place : Nat) ∧
    state.edges = []
  accepting : ∀ place state, nfa.states[place]? = some state →
    (state.accepting = true ↔ nfa.finish = (place : Nat))
  onward : ∀ place state, nfa.states[place]? = some state → nfa.finish ≠ (place : Nat) →
    state.Onward
  inside : ∀ state ∈ nfa.states, ∀ target ∈ state.allTargets,
    0 ≤ target ∧ target < nfa.states.size
  between : ∀ place < nfa.states.size, ∃ before after,
    nfa.Path nfa.start before (place : Nat) ∧ nfa.Path (place : Nat) after nfa.finish

/-- States that carry their places as numbers are reported under them. -/
theorem ids_toJson {arena : Arena}
    (hids : ∀ (place : Nat) (state : State), arena[place]? = some state → state.id = place) :
    ∃ reports, Arena.toJson arena = .array reports ∧
      reports.map (·.member? "id") =
        (List.range arena.size).map fun place => some (.natural place) := by
  refine ⟨_, rfl, List.ext_getElem? fun place => ?_⟩
  rw [List.getElem?_map, List.getElem?_map, List.getElem?_map, Array.getElem?_toList]
  cases hstate : arena[place]? with
  | none =>
    rw [List.getElem?_eq_none (by simpa using hstate)]
    rfl
  | some state =>
    have hreport : state.toJson.member? "id" = some (.natural state.id) := rfl
    rw [List.getElem?_range (Array.getElem?_eq_some_iff.1 hstate).1, Option.map_some,
      Option.map_some, Option.map_some, hreport, hids place state hstate]

section Assembled

variable {regex : Regex} {nfa : Nfa} (hknown : regex.isKnown) (hnfa : Nfa.ofRegex regex = .ok nfa)

include hknown hnfa

/-- What a state leads to is led to in the fragment of the tree. -/
theorem exists_edge_of_mem_allTargets {state : State} (hstate : state ∈ nfa.states)
    {target : StateNumber} (htarget : target ∈ state.allTargets) :
    ∃ source symbol, Fragment.Edge 0 regex source symbol target := by
  obtain ⟨place, hplace⟩ := Array.mem_iff_getElem?.1 hstate
  obtain ⟨symbol, hsymbol⟩ := State.mem_allTargets.1 htarget
  have hedge : nfa.Edge (place : Nat) symbol target :=
    ⟨state, by rw [find?_natCast, hplace], hsymbol⟩
  exact ⟨_, symbol, (edge_ofRegex hknown hnfa (Int.natCast_nonneg place)).1 hedge⟩

/-- To accept makes no difference to the edges of a state. -/
theorem gated_ofRegex : Arena.Gated (Fragment.exit regex) nfa.states := by
  have hgated := Fragment.gated hknown 0
  have hedges : ∀ (place : Nat) (state : State), nfa.states[place]? = some state →
      ∃ old : State, (Fragment.states 0 regex)[place]? = some old ∧ old.edges = state.edges := by
    intro place state hstate
    rw [states_ofRegex hknown hnfa, Array.getElem?_modify] at hstate
    split at hstate
    · obtain ⟨old, hold, rfl⟩ := Option.map_eq_some_iff.1 hstate
      exact ⟨old, hold, rfl⟩
    · exact ⟨state, hstate, rfl⟩
  constructor
  · intro state hstate
    obtain ⟨old, hold, hsame⟩ := hedges _ state hstate
    rw [← hsame, hgated.closed old hold]
  · intro place state hstate hplace
    obtain ⟨old, hold, hsame⟩ := hedges place state hstate
    cases hgated.onward place old hold hplace with
    | reading symbol target hsymbol hread => exact .reading symbol target hsymbol (hsame ▸ hread)
    | silent target hread => exact .silent target (hsame ▸ hread)
    | forking first second hdistinct hread => exact .forking first second hdistinct (hsame ▸ hread)

theorem id_ofRegex (place : Nat) (state : State) (hstate : nfa.states[place]? = some state) :
    state.id = place := by
  have hids := Fragment.numberedFrom_states 0 regex
  rw [states_ofRegex hknown hnfa, Array.getElem?_modify] at hstate
  split at hstate
  · obtain ⟨old, hold, rfl⟩ := Option.map_eq_some_iff.1 hstate
    exact (hids place old hold).trans (Nat.zero_add place)
  · exact (hids place state hstate).trans (Nat.zero_add place)

/-- An assembled automaton is of the standard shape, since its states are those of one fragment. -/
theorem standard_ofRegex : nfa.Standard := by
  have hexit : Fragment.exit regex < nfa.states.size := by
    rw [size_ofRegex hknown hnfa]
    exact Fragment.exit_lt_size hknown
  have hgated := gated_ofRegex hknown hnfa
  have hfound : nfa.states[Fragment.exit regex]? = some nfa.states[Fragment.exit regex] :=
    Array.getElem?_eq_getElem hexit
  constructor
  · exact id_ofRegex hknown hnfa
  · exact ids_toJson (id_ofRegex hknown hnfa)
  · exact ⟨0, by omega, start_ofRegex hknown hnfa⟩
  · intro state hstate hstart
    obtain ⟨source, symbol, hedge⟩ := exists_edge_of_mem_allTargets hknown hnfa hstate hstart
    rw [start_ofRegex hknown hnfa] at hedge
    exact Fragment.not_edge_start hknown hedge
  · exact ⟨_, _, hfound, finish_ofRegex hknown hnfa, hgated.closed _ hfound⟩
  · intro place state hstate
    have hplace := (Array.getElem?_eq_some_iff.1 hstate).1
    have haccepts := isAccepting_ofRegex hknown hnfa (within_natCast hknown hnfa hplace)
    rw [isAccepting, find?_natCast, hstate] at haccepts
    rw [finish_ofRegex hknown hnfa]
    exact haccepts.trans eq_comm
  · intro place state hstate hplace
    rw [finish_ofRegex hknown hnfa, Ne, Int.natCast_inj] at hplace
    exact hgated.onward place state hstate (Ne.symm hplace)
  · intro state hstate target htarget
    obtain ⟨source, symbol, hedge⟩ := exists_edge_of_mem_allTargets hknown hnfa hstate htarget
    have hwithin := (Fragment.within_of_edge hknown hedge).2
    rw [Fragment.Within, Nat.zero_add, ← size_ofRegex hknown hnfa] at hwithin
    exact hwithin
  · intro place hplace
    obtain ⟨before, hbefore⟩ := exists_path_to hknown hnfa hplace
    obtain ⟨after, hafter⟩ := exists_path_from hknown hnfa hplace
    exact ⟨before, after, hbefore, hafter⟩

end Assembled

/-- The automaton of a tree has two states for each character, alternation and star, and for each
of these one character of the text that the tree was read from. -/
theorem shape_ofRegex {regex : Regex} (hknown : regex.isKnown) :
    ∃ nfa, Nfa.ofRegex regex = .ok nfa ∧ nfa.Standard ∧ nfa.states.size = 2 * regex.pairs ∧
      ∀ text, Regex.parse text = .ok regex →
        nfa.states.size = 2 * text.toList.countP Regex.bringsPair := by
  have hnfa := ofRegex_eq hknown
  have hsize := (size_ofRegex hknown hnfa).trans (Regex.size_eq_two_mul_pairs regex)
  refine ⟨_, hnfa, standard_ofRegex hknown hnfa, hsize, fun text hparse => ?_⟩
  rw [hsize, (Regex.derives_of_parse hparse).countP_eq]

/-- A tree with a character that reads nothing and one of two letters, and one read from a text. -/
theorem shape_ofRegex_loops :
    (∃ nfa, Nfa.ofRegex (.concat (.star (.char epsilon)) (.star (.char "ab"))) = .ok nfa ∧
      nfa.Standard ∧
      nfa.states.size =
        2 * (Regex.concat (.star (.char epsilon)) (.star (.char "ab"))).pairs ∧
      ∀ text, Regex.parse text = .ok (.concat (.star (.char epsilon)) (.star (.char "ab"))) →
        nfa.states.size = 2 * text.toList.countP Regex.bringsPair) ∧
    ∃ nfa, Nfa.ofRegex (.star (.alternation (.char "a") (.concat (.char "b") (.char "c")))) =
        .ok nfa ∧ nfa.Standard ∧ nfa.states.size = 10 := by
  refine ⟨shape_ofRegex rfl, ?_⟩
  have hparse : Regex.parse "(a|b.c)*" =
      .ok (.star (.alternation (.char "a") (.concat (.char "b") (.char "c")))) := by
    decide +kernel
  obtain ⟨nfa, hnfa, hstandard, -, hsize⟩ :=
    @shape_ofRegex (.star (.alternation (.char "a") (.concat (.char "b") (.char "c")))) rfl
  exact ⟨nfa, hnfa, hstandard, (hsize "(a|b.c)*" hparse).trans (by decide +kernel)⟩

end Nfa
end RegexAutomata
