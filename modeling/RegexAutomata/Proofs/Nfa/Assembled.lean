import RegexAutomata.Proofs.Nfa.FragmentLanguage
import RegexAutomata.Proofs.Nfa.Reading

/-!
# The automaton of a tree

The automaton that a tree is assembled to has the edges of the tree's fragment and no others, so
that its paths are the trails of the fragment.  It has no stray edges, it reads nothing but values
of the tree, and of its states only the last one of the fragment accepts.
-/

namespace RegexAutomata

namespace Arena

variable {property : Nfa.State → Prop} {before block : Arena}

theorem forall_mem_append (hbefore : ∀ state ∈ before, property state)
    (hblock : ∀ state ∈ block, property state) : ∀ state ∈ before ++ block, property state := by
  intro state hstate
  exact (Array.mem_append.1 hstate).elim (hbefore state) (hblock state)

theorem forall_mem_modify {change : Nfa.State → Nfa.State}
    (hchange : ∀ state, property state → property (change state)) (place : Nat)
    (hblock : ∀ state ∈ block, property state) :
    ∀ state ∈ block.modify place change, property state := by
  intro state hstate
  obtain ⟨other, hother⟩ := Array.mem_iff_getElem?.1 hstate
  rw [Array.getElem?_modify] at hother
  split at hother
  · obtain ⟨old, hold, rfl⟩ := Option.map_eq_some_iff.1 hother
    exact hchange old (hblock old (Array.mem_of_getElem? hold))
  · exact hblock state (Array.mem_of_getElem? hother)

end Arena

namespace Fragment

open Arena

/-- What holds of a state without edges, and survives the edges that are silent or read a value of
the tree, holds of all states of the fragment. -/
theorem forall_mem_states (property : Nfa.State → Prop) {regex : Regex} 
    (hempty : ∀ id, property { id })
    (hlink : ∀ symbol target, symbol = epsilon ∨ symbol ∈ regex.values →
      ∀ state, property state → property (state.link symbol target)) (base : Nat) :
    ∀ state ∈ states base regex, property state := by
  have hends : ∀ base, ∀ state ∈ ends base, property state := by
    simp [ends, hempty]
  have hsilent : ∀ target state, property state → property (state.link epsilon target) :=
    fun target => hlink epsilon target (Or.inl rfl)
  induction regex generalizing base with
  | char value =>
    exact forall_mem_modify (hlink value _ (Or.inr List.mem_cons_self)) 0 (hends base)
  | concat left right ihLeft ihRight =>
    simp only [Regex.values, List.mem_append] at hlink
    have hleft := ihLeft (fun symbol target hsymbol =>
      hlink symbol target (hsymbol.imp_right Or.inl))
    have hright := ihRight (fun symbol target hsymbol =>
      hlink symbol target (hsymbol.imp_right Or.inr))
    exact forall_mem_append (forall_mem_modify (hsilent _) _ (hleft _)) (hright _)
  | alternation left right ihLeft ihRight =>
    simp only [Regex.values, List.mem_append] at hlink
    have hleft := ihLeft (fun symbol target hsymbol =>
      hlink symbol target (hsymbol.imp_right Or.inl))
    have hright := ihRight (fun symbol target hsymbol =>
      hlink symbol target (hsymbol.imp_right Or.inr))
    refine forall_mem_append
      (forall_mem_modify (hsilent _) _ (forall_mem_modify (hsilent _) _ (hends base)))
      (forall_mem_append ?_ ?_)
    · exact forall_mem_modify (hsilent _) _ (hleft _)
    · exact forall_mem_modify (hsilent _) _ (hright _)
  | star inner ih =>
    have hinner := ih hlink
    refine forall_mem_append
      (forall_mem_modify (hsilent _) _ (forall_mem_modify (hsilent _) _ (hends base))) ?_
    exact forall_mem_modify (hsilent _) _ (forall_mem_modify (hsilent _) _ (hinner _))
  | unknown kind mark => exact fun state hstate => absurd hstate (Array.not_mem_empty state)

theorem accepting_of_mem_states {base : Nat} {regex : Regex} :
    ∀ state ∈ states base regex, state.accepting = false :=
  forall_mem_states (fun state => state.accepting = false) (fun _ => rfl)
    (fun _ _ _ _ haccepting => haccepting) base

/-- An edge of a fragment is silent or reads a value of the tree. -/
theorem symbol_of_mem_states {base : Nat} {regex : Regex} :
    ∀ state ∈ states base regex, ∀ symbol ∈ state.edges.map Prod.fst,
      symbol = epsilon ∨ symbol ∈ regex.values := by
  refine forall_mem_states
    (fun state => ∀ symbol ∈ state.edges.map Prod.fst, symbol = epsilon ∨ symbol ∈ regex.values)
    (by simp) (fun label target hlabel state hstate symbol hsymbol => ?_) base
  rw [Nfa.State.link, Table.keys_alter] at hsymbol
  split at hsymbol
  · exact hstate symbol hsymbol
  · rcases List.mem_append.1 hsymbol with hold | hnew
    · exact hstate symbol hold
    · exact List.mem_singleton.1 hnew ▸ hlabel

theorem within_start {base : Nat} {regex : Regex} (hknown : regex.isKnown) :
    Within base regex base := by
  have hexit := exit_lt_size hknown
  rw [Within]
  omega

end Fragment

namespace Nfa

variable {regex : Regex} {nfa : Nfa}

section Assembled

variable (hknown : regex.isKnown) (hnfa : Nfa.ofRegex regex = .ok nfa)

include hknown hnfa

theorem states_ofRegex :
    nfa.states = (Fragment.states 0 regex).modify (Fragment.exit regex) State.accept := by
  rw [ofRegex_eq hknown] at hnfa
  cases hnfa
  rfl

theorem start_ofRegex : nfa.start = 0 := by
  rw [ofRegex_eq hknown] at hnfa
  cases hnfa
  rfl

theorem edge_ofRegex {source target : StateNumber} {symbol : String} (hsource : 0 ≤ source) :
    nfa.Edge source symbol target ↔ Fragment.Edge 0 regex source symbol target := by
  obtain ⟨place, rfl⟩ := Int.eq_ofNat_of_zero_le hsource
  rw [edge_natCast, states_ofRegex hknown hnfa, Arena.edge_modify_accept, Fragment.Edge]

theorem path_of_trail {source target : StateNumber} {word : List String}
    (htrail : Trail (Fragment.Edge 0 regex) source word target) :
    nfa.Path source word target := by
  apply htrail.mono
  intro before symbol after hedge
  exact (edge_ofRegex hknown hnfa (Fragment.within_of_edge hknown hedge).1.1).2 hedge

/-- From the start on, paths are trails of the fragment. -/
theorem path_ofRegex {word : List String} {id : StateNumber} :
    nfa.Path nfa.start word id ↔ Trail (Fragment.Edge 0 regex) 0 word id := by
  rw [start_ofRegex hknown hnfa]
  constructor
  · intro hpath
    refine hpath.of_closed (fun source symbol target hsource hedge => ?_)
      (Fragment.within_start hknown)
    have hown := (edge_ofRegex hknown hnfa hsource.1).1 hedge
    exact ⟨hown, (Fragment.within_of_edge hknown hown).2⟩
  · exact path_of_trail hknown hnfa

theorem within_of_reachable {id : StateNumber} (hreachable : nfa.Reachable id) :
    Fragment.Within 0 regex id := by
  rw [Reachable, start_ofRegex hknown hnfa] at hreachable
  induction hreachable with
  | refl => exact Fragment.within_start hknown
  | tail _ hadjacent ih =>
    obtain ⟨symbol, hedge⟩ := hadjacent
    exact (Fragment.within_of_edge hknown ((edge_ofRegex hknown hnfa ih.1).1 hedge)).2

theorem intact_ofRegex : nfa.Intact := by
  intro id hreachable
  have hwithin := within_of_reachable hknown hnfa hreachable
  rw [exists_iff, states_ofRegex hknown hnfa, Array.size_modify, Fragment.size_states]
  rw [Fragment.Within] at hwithin
  omega

/-- Only the last state of the fragment accepts. -/
theorem isAccepting_ofRegex {id : StateNumber} (hid : Fragment.Within 0 regex id) :
    nfa.isAccepting id = true ↔ id = (Fragment.exit regex : Nat) := by
  obtain ⟨place, rfl⟩ := Int.eq_ofNat_of_zero_le hid.1
  have hplace : place < (Fragment.states 0 regex).size := by
    rw [Fragment.Within] at hid
    rw [Fragment.size_states]
    omega
  have hstate : (Fragment.states 0 regex)[place]? = some (Fragment.states 0 regex)[place] :=
    Array.getElem?_eq_getElem hplace
  have hrejects := Fragment.accepting_of_mem_states _ (Array.getElem_mem hplace)
  rw [isAccepting, find?_natCast, states_ofRegex hknown hnfa, Array.getElem?_modify, hstate,
    Int.natCast_inj]
  split
  · next hexit => simp [hexit, State.accept]
  · next hexit => simp [Ne.symm hexit, hrejects]

/-- The words of the tree are those along which an accepting state is reached. -/
theorem exists_accepting_iff (hvalues : epsilon ∉ regex.values) {word : List String} :
    (∃ id, nfa.Path nfa.start word id ∧ nfa.isAccepting id) ↔ word ∈ regex.language := by
  have hspells := Fragment.spells_language hknown hvalues 0 word
  rw [Nat.zero_add] at hspells
  refine Iff.trans ?_ ((path_ofRegex hknown hnfa).trans hspells)
  constructor
  · rintro ⟨id, hpath, haccepting⟩
    have hwithin := within_of_reachable hknown hnfa (Reachable.path .refl hpath)
    exact (isAccepting_ofRegex hknown hnfa hwithin).1 haccepting ▸ hpath
  · intro hpath
    have hwithin := within_of_reachable hknown hnfa (Reachable.path .refl hpath)
    exact ⟨_, hpath, (isAccepting_ofRegex hknown hnfa hwithin).2 rfl⟩

/-- Only values of the tree are read. -/
theorem alphabet_ofRegex :
    ∃ symbols, nfa.alphabet = .ok symbols ∧ ∀ symbol ∈ symbols, symbol ∈ regex.values := by
  obtain ⟨symbols, hsymbols, hmem⟩ := alphabet_eq (intact_ofRegex hknown hnfa)
  refine ⟨symbols, hsymbols, fun symbol hsymbol => ?_⟩
  obtain ⟨hread, id, state, hreachable, hstate, hlisted⟩ := (hmem symbol).1 hsymbol
  obtain ⟨place, rfl⟩ :=
    Int.eq_ofNat_of_zero_le (within_of_reachable hknown hnfa hreachable).1
  rw [find?_natCast, states_ofRegex hknown hnfa] at hstate
  have hstates : ∀ state ∈ (Fragment.states 0 regex).modify (Fragment.exit regex) State.accept,
      ∀ symbol ∈ state.edges.map Prod.fst, symbol = epsilon ∨ symbol ∈ regex.values := by
    refine Arena.forall_mem_modify ?_ _ Fragment.symbol_of_mem_states
    exact fun _ hold => hold
  exact (hstates state (Array.mem_of_getElem? hstate) symbol hlisted).resolve_left hread

end Assembled

end Nfa
end RegexAutomata
