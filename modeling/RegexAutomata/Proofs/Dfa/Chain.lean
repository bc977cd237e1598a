import RegexAutomata.Proofs.Dfa.AccessWord
import RegexAutomata.Proofs.Dfa.EqualSize

/-!
# Concatenations become chains

A tree of characters and concatenations stands for one word, its characters from left to right.  In
an automaton for one word every walk spells a beginning of the word, if no state is useless, and
different beginnings lead to different states.  If the states are numbered as they are discovered,
the number of a state is the length of its beginning.  So the nesting of the tree and the kind of
construction make no difference.
-/

namespace RegexAutomata

namespace Dfa

/-- The states stand in a row, one for each beginning of the word.  Each has a transition for the
next symbol to the next state, the last one has none, and only the last one accepts. -/
structure Chain (dfa : Dfa) (word : List String) : Prop where
  start_eq : dfa.start = some 0
  size_eq : dfa.states.size = word.length + 1
  transitions_eq : ∀ (index : Nat) (state : State), dfa.states[index]? = some state →
    state.transitions = (word[index]?.map fun symbol => (symbol, index + 1)).toList
  accepting_iff : ∀ (index : Nat) (state : State), dfa.states[index]? = some state →
    (state.accepting = true ↔ index = word.length)

/-- The automaton accepts one word and no other, has no useless states, and its states are numbered
as they are discovered. -/
structure SpellsOnly (dfa : Dfa) (word : List String) : Prop where
  closed : dfa.Closed
  trim : dfa.Trim
  breadthFirst : dfa.BreadthFirst
  accepts_iff : ∀ other, dfa.acceptsWord other = .ok true ↔ other = word

namespace SpellsOnly

variable {dfa : Dfa} {word other : List String} {index : Nat}

theorem take_succ_of_getElem? {length : Nat} {symbol : String}
    (hsymbol : word[length]? = some symbol) :
    word.take length ++ [symbol] = word.take (length + 1) := by
  rw [List.take_add_one, hsymbol, Option.toList_some]

/-- Whatever word leads to a state, it is the same rest that completes it. -/
theorem exists_rest (hspells : dfa.SpellsOnly word) (hindex : index < dfa.states.size) :
    ∃ rest, ∀ other, dfa.walk other = .ok (some index) → other ++ rest = word := by
  obtain ⟨rest, final, state, hrest, hstate, haccepting⟩ := hspells.trim.coaccessible index hindex
  refine ⟨rest, fun other hwalk => (hspells.accepts_iff _).1 ?_⟩
  exact acceptsWord_eq_true_iff.2
    ⟨final, state, (walk_append hwalk rest).trans hrest, hstate, haccepting⟩

theorem isPrefix (hspells : dfa.SpellsOnly word) (hwalk : dfa.walk other = .ok (some index)) :
    other <+: word := by
  obtain ⟨rest, hrest⟩ := hspells.exists_rest (hspells.closed.lt_size ⟨other, hwalk⟩)
  exact ⟨rest, hrest other hwalk⟩

/-- Different words lead to different states. -/
theorem walk_injective (hspells : dfa.SpellsOnly word) {left right : List String}
    (hleft : dfa.walk left = .ok (some index)) (hright : dfa.walk right = .ok (some index)) :
    left = right := by
  obtain ⟨rest, hrest⟩ := hspells.exists_rest (hspells.closed.lt_size ⟨left, hleft⟩)
  exact List.append_cancel_right ((hrest left hleft).trans (hrest right hright).symm)

/-- Every beginning of the word can be walked. -/
theorem exists_walk_take (hspells : dfa.SpellsOnly word) (length : Nat) :
    ∃ index, dfa.walk (word.take length) = .ok (some index) := by
  obtain ⟨final, -, hfinal, -⟩ := acceptsWord_eq_true_iff.1 ((hspells.accepts_iff word).2 rfl)
  rw [hspells.closed.walk_eq] at hfinal ⊢
  cases hreached : dfa.reached dfa.start (word.take length) with
  | some index => exact ⟨index, rfl⟩
  | none =>
    have hnone : dfa.reached dfa.start word = none :=
      calc dfa.reached dfa.start word
          = dfa.reached dfa.start (word.take length ++ word.drop length) := by
            rw [List.take_append_drop]
        _ = dfa.reached (dfa.reached dfa.start (word.take length)) (word.drop length) :=
            List.foldl_append
        _ = none := by rw [hreached, reached_none]
    rw [hnone] at hfinal
    cases hfinal

/-- What a walk spells behind a beginning of the word is the next symbol. -/
theorem getElem?_of_walk (hspells : dfa.SpellsOnly word) {length : Nat} {symbol : String}
    (hlength : length ≤ word.length)
    (hwalk : dfa.walk (word.take length ++ [symbol]) = .ok (some index)) :
    word[length]? = some symbol := by
  obtain ⟨rest, hrest⟩ := hspells.isPrefix hwalk
  rw [List.append_assoc] at hrest
  rw [← hrest, List.getElem?_append_right (List.length_take_le _ _), List.length_take,
    Nat.min_eq_left hlength, Nat.sub_self]
  rfl

/-- The number of a state is the length of the beginning that leads to it. -/
theorem walk_take (hspells : dfa.SpellsOnly word) (hindex : index < dfa.states.size) :
    index ≤ word.length ∧ dfa.walk (word.take index) = .ok (some index) := by
  induction index using Nat.strongRecOn with
  | ind index ih =>
    rcases Nat.eq_zero_or_pos index with rfl | hpositive
    · exact ⟨Nat.zero_le _, by rw [walk, hspells.breadthFirst.start_eq]; rfl⟩
    · obtain ⟨source, symbol, hsource, hnext, -⟩ :=
        hspells.breadthFirst.exists_discovery index hindex hpositive
      obtain ⟨hlength, hwalk⟩ := ih source hsource (hsource.trans hindex)
      have hlast : dfa.walk (word.take source ++ [symbol]) = .ok (some index) :=
        walk_snoc_iff.2 ⟨source, hwalk, hnext⟩
      have hsymbol := hspells.getElem?_of_walk hlength hlast
      have hbound := (List.getElem?_eq_some_iff.1 hsymbol).1
      rw [take_succ_of_getElem? hsymbol] at hlast
      -- the beginning leads to the state of its length, if that one comes earlier
      rcases Nat.eq_or_lt_of_le hsource with rfl | hless
      · exact ⟨hbound, hlast⟩
      · obtain ⟨-, hother⟩ := ih (source + 1) hless (hless.trans hindex)
        rw [hother, Except.ok.injEq, Option.some.injEq] at hlast
        exact absurd hlast (Nat.ne_of_lt hless)

theorem lt_size_iff (hspells : dfa.SpellsOnly word) :
    index < dfa.states.size ↔ index ≤ word.length := by
  refine ⟨fun hindex => (hspells.walk_take hindex).1, fun hlength => ?_⟩
  obtain ⟨reached, hreached⟩ := hspells.exists_walk_take index
  have hbound := hspells.closed.lt_size ⟨_, hreached⟩
  obtain ⟨hless, hown⟩ := hspells.walk_take hbound
  have hsame := congrArg List.length (hspells.walk_injective hreached hown)
  rw [List.length_take, List.length_take, Nat.min_eq_left hlength, Nat.min_eq_left hless] at hsame
  exact hsame ▸ hbound

/-- A transition is for the next symbol of the word and leads to the next state. -/
theorem next_eq_some_iff (hspells : dfa.SpellsOnly word) (hindex : index < dfa.states.size)
    {symbol : String} {target : Nat} :
    dfa.next index symbol = .ok (some target) ↔
      word[index]? = some symbol ∧ target = index + 1 := by
  obtain ⟨hlength, hwalk⟩ := hspells.walk_take hindex
  have hnext : ∀ {label : String}, word[index]? = some label →
      dfa.walk (word.take index ++ [label]) = .ok (some (index + 1)) := by
    intro label hlabel
    have hbound := hspells.lt_size_iff.2 (List.getElem?_eq_some_iff.1 hlabel).1
    rw [take_succ_of_getElem? hlabel]
    exact (hspells.walk_take hbound).2
  constructor
  · intro hleads
    have hlast := walk_snoc_iff.2 ⟨index, hwalk, hleads⟩
    have hsymbol := hspells.getElem?_of_walk hlength hlast
    rw [hnext hsymbol, Except.ok.injEq, Option.some.injEq] at hlast
    exact ⟨hsymbol, hlast.symm⟩
  · rintro ⟨hsymbol, rfl⟩
    obtain ⟨middle, hmiddle, hleads⟩ := walk_snoc_iff.1 (hnext hsymbol)
    rw [hwalk, Except.ok.injEq, Option.some.injEq] at hmiddle
    exact hmiddle ▸ hleads

/-- An automaton for one word is a chain. -/
theorem chain (hspells : dfa.SpellsOnly word) : dfa.Chain word where
  start_eq := hspells.breadthFirst.start_eq
  size_eq := by
    have hlast := hspells.lt_size_iff.2 (Nat.le_refl word.length)
    have hbeyond := mt hspells.lt_size_iff.1 (Nat.not_le.2 (Nat.lt_succ_self word.length))
    omega
  transitions_eq index state hstate := by
    obtain ⟨hindex, rfl⟩ := Array.getElem?_eq_some_iff.1 hstate
    have hmem : ∀ entry, entry ∈ dfa.states[index].transitions ↔
        entry ∈ (word[index]?.map fun symbol => (symbol, index + 1)).toList := by
      rintro ⟨symbol, target⟩
      rw [hspells.closed.mem_transitions_iff hindex, ← Except.ok.injEq, ← next_eq hindex,
        hspells.next_eq_some_iff hindex]
      cases word[index]? <;> simp [eq_comm]
    have hnodup := (hspells.closed.nodup _ (Array.getElem_mem hindex)).of_map
    cases hsymbol : word[index]? with
    | none =>
      rw [hsymbol] at hmem
      exact List.eq_nil_iff_forall_not_mem.2 fun entry hentry =>
        absurd ((hmem entry).1 hentry) List.not_mem_nil
    | some symbol =>
      rw [hsymbol] at hmem
      exact List.perm_singleton.1
        ((List.perm_ext_iff_of_nodup hnodup (List.nodup_singleton _)).2 hmem)
  accepting_iff index state hstate := by
    obtain ⟨hindex, rfl⟩ := Array.getElem?_eq_some_iff.1 hstate
    obtain ⟨hlength, hwalk⟩ := hspells.walk_take hindex
    have haccepts : dfa.acceptsWord (word.take index) = .ok dfa.states[index].accepting := by
      rw [acceptsWord_eq hwalk, Option.elim_some, state?_of_lt hindex]
      rfl
    calc dfa.states[index].accepting = true
        ↔ dfa.acceptsWord (word.take index) = .ok true := by rw [haccepts, Except.ok.injEq]
      _ ↔ word.take index = word := hspells.accepts_iff _
      _ ↔ index = word.length := by rw [List.take_eq_self_iff]; omega

end SpellsOnly

/-- Two chains of one word have the same transitions. -/
theorem Chain.same_target {left right : Dfa} {word : List String} (hleft : left.Chain word)
    (hright : right.Chain word) {index : Nat} (hindex : index < left.states.size)
    (hother : index < right.states.size) (symbol : String) :
    left.target (some index) symbol = right.target (some index) symbol := by
  rw [target_eq hindex, target_eq hother,
    hleft.transitions_eq index _ (Array.getElem?_eq_getElem hindex),
    hright.transitions_eq index _ (Array.getElem?_eq_getElem hother)]

/-- Two chains of one word do not even differ in their numbering. -/
theorem Chain.isomorphism {left right : Dfa} {word : List String} (hleft : left.Chain word)
    (hright : right.Chain word) (hleftReached : left.Reached) (hrightReached : right.Reached) :
    Isomorphism left right id := by
  have hsize : left.states.size = right.states.size := hleft.size_eq.trans hright.size_eq.symm
  have hbounds : ∀ {index}, left.Accessible index →
      index < left.states.size ∧ index < right.states.size := by
    intro index hindex
    have hbound := hleftReached.accessible_iff.1 hindex
    exact ⟨hbound, hsize ▸ hbound⟩
  refine ⟨?_, ⟨0, hleft.start_eq, hright.start_eq⟩, fun index hindex => ?_,
    fun index hindex symbol => ?_⟩
  · rw [hleftReached.setOf_accessible, hrightReached.setOf_accessible, hsize]
    exact Set.bijOn_id _
  · obtain ⟨hown, hother⟩ := hbounds hindex
    refine ⟨_, _, state?_of_lt hown, state?_of_lt hother, Bool.eq_iff_iff.2 ?_⟩
    rw [hright.accepting_iff index _ (Array.getElem?_eq_getElem hother),
      hleft.accepting_iff index _ (Array.getElem?_eq_getElem hown)]
  · obtain ⟨hown, hother⟩ := hbounds hindex
    refine ⟨_, next_eq hown symbol, ?_⟩
    rw [id_eq, next_eq hother, hleft.same_target hright hown hother, Option.map_id, id_eq]

theorem SpellsOnly.isIsomorphic {left right : Dfa} {word : List String}
    (hleft : left.SpellsOnly word) (hright : right.SpellsOnly word) :
    left.isIsomorphic right = .ok true := by
  have hsame : Isomorphism left right id := hleft.chain.isomorphism hright.chain
    ⟨hleft.closed, hleft.trim.accessible⟩ ⟨hright.closed, hright.trim.accessible⟩
  have hfilled : ¬ left.isEmpty ∧ ¬ right.isEmpty := by
    simp [isEmpty, hleft.chain.start_eq, hright.chain.start_eq]
  rcases isIsomorphic_spec hleft.closed hright.closed with ⟨hyes, -⟩ | ⟨-, hdiffer⟩
  · exact hyes
  · exact absurd (.inr ⟨hfilled.1, hfilled.2, id, hsame⟩) hdiffer

end Dfa

namespace Regex

def isConcatenation : Regex → Bool
  | char _ => true
  | concat left right => left.isConcatenation && right.isConcatenation
  | _ => false

variable {regex : Regex}

theorem isKnown_of_isConcatenation (hrow : regex.isConcatenation) : regex.isKnown := by
  induction regex with
  | char value => rfl
  | concat left right ihLeft ihRight =>
    rw [isConcatenation, Bool.and_eq_true] at hrow
    rw [isKnown, ihLeft hrow.1, ihRight hrow.2]
    rfl
  | alternation left right => simp [isConcatenation] at hrow
  | star inner => simp [isConcatenation] at hrow
  | unknown kind mark => simp [isConcatenation] at hrow

/-- A concatenation of characters stands for one word, in whatever way it is nested. -/
theorem language_of_isConcatenation (hrow : regex.isConcatenation) :
    regex.language = {regex.values} := by
  induction regex with
  | char value => rfl
  | concat left right ihLeft ihRight =>
    rw [isConcatenation, Bool.and_eq_true] at hrow
    rw [language, ihLeft hrow.1, ihRight hrow.2, values]
    exact Set.image2_singleton
  | alternation left right => simp [isConcatenation] at hrow
  | star inner => simp [isConcatenation] at hrow
  | unknown kind mark => simp [isConcatenation] at hrow

/-- Both constructions make the same chain of a concatenation, in whatever way it is nested: one
state for each beginning of its word.  They are isomorphic in both directions. -/
theorem constructions_chain (hrow : regex.isConcatenation) (hvalues : epsilon ∉ regex.values) :
    ∃ nfa subset direct trace, Nfa.ofRegex regex = .ok nfa ∧ Dfa.ofNfa nfa none = .ok subset ∧
      regex.direct none = .ok (direct, trace) ∧ subset.Chain regex.values ∧
      direct.Chain regex.values ∧ subset.isIsomorphic direct = .ok true ∧
      direct.isIsomorphic subset = .ok true := by
  have hknown := isKnown_of_isConcatenation hrow
  have hnfa := Nfa.ofRegex_eq hknown
  have hintact := Nfa.intact_ofRegex hknown hnfa
  have honly : ∀ {dfa : Dfa}, (∀ word, ∃ answer, dfa.acceptsWord word = .ok answer ∧
      (answer = true ↔ word ∈ regex.language)) →
        ∀ word, dfa.acceptsWord word = .ok true ↔ word = regex.values := by
    intro dfa haccepts word
    obtain ⟨answer, hanswer, htrue⟩ := haccepts word
    rw [hanswer, Except.ok.injEq, htrue, language_of_isConcatenation hrow]
    exact Set.mem_singleton_iff
  obtain ⟨subset, hsubset, hsubsetAccepts⟩ := Dfa.ofNfa_acceptsWord hknown hvalues hnfa
  obtain ⟨direct, trace, hdirect, hdirectAccepts⟩ := direct_acceptsWord hknown
  have hfirst : subset.SpellsOnly regex.values :=
    ⟨Dfa.closed_ofNfa hintact hsubset, Dfa.trim_ofNfa hknown hnfa hsubset,
      Dfa.breadthFirst_ofNfa hintact hsubset, honly hsubsetAccepts⟩
  have hsecond : direct.SpellsOnly regex.values := by
    obtain ⟨other, steps, hother, htrim⟩ := trim_direct hknown
    obtain rfl := congrArg Prod.fst (Except.ok.inj (hother.symm.trans hdirect))
    exact ⟨Dfa.closed_direct hknown hdirect, htrim, Dfa.breadthFirst_direct hknown hdirect,
      honly hdirectAccepts⟩
  exact ⟨_, subset, direct, trace, hnfa, hsubset, hdirect, hfirst.chain, hsecond.chain,
    hfirst.isIsomorphic hsecond, hsecond.isIsomorphic hfirst⟩

/-- Four characters, nested to both sides, of which two are the same and one has the text of the end
marker. -/
def nestedRow : Regex :=
  .concat (.concat (.char "a") (.char endMarker)) (.concat (.char "b") (.char "a"))

theorem constructions_chain_nestedRow :
    nestedRow.isConcatenation ∧ epsilon ∉ nestedRow.values ∧
      ∃ nfa subset direct trace, Nfa.ofRegex nestedRow = .ok nfa ∧
        Dfa.ofNfa nfa none = .ok subset ∧ nestedRow.direct none = .ok (direct, trace) ∧
        subset.Chain ["a", "#", "b", "a"] ∧ direct.Chain ["a", "#", "b", "a"] ∧
        subset.isIsomorphic direct = .ok true ∧ direct.isIsomorphic subset = .ok true :=
  have hvalues : epsilon ∉ nestedRow.values := by decide
  ⟨rfl, hvalues, constructions_chain rfl hvalues⟩

end Regex
end RegexAutomata
