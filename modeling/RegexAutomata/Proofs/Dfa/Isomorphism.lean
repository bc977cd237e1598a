import Mathlib.Data.Set.Function
import RegexAutomata.Proofs.Dfa.Agreement

/-!
# Automata that differ in their numbering only

Two automata are isomorphic if their reachable parts can be mapped onto each other, one to one.
Then two states meet under a common word exactly if they correspond.  The comparison collects the
pairs of states that meet, and gives up at two pairs that share one half only, or at a pair whose
halves differ in acceptance or in their symbols.  If there is nothing of the kind among all pairs
that meet, then these pairs are the isomorphism.
-/

namespace RegexAutomata.Dfa

/-- The start and all targets exist, and each state lists a symbol once at most. -/
structure Closed (dfa : Dfa) : Prop where
  start : dfa.Has dfa.start
  target : ∀ state ∈ dfa.states, ∀ entry ∈ state.transitions, entry.2 < dfa.states.size
  nodup : ∀ state ∈ dfa.states, (state.transitions.map Prod.fst).Nodup

/-- A one-to-one map between the states that are reached from the starts, under which starts,
acceptance and transitions agree, missing transitions included. -/
structure Isomorphism (left right : Dfa) (image : Nat → Nat) : Prop where
  bijective : Set.BijOn image {index | left.Accessible index} {index | right.Accessible index}
  start : ∃ index, left.start = some index ∧ right.start = some (image index)
  accepting : ∀ index, left.Accessible index → ∃ state other, left.state? index = .ok state ∧
    right.state? (image index) = .ok other ∧ other.accepting = state.accepting
  next : ∀ index, left.Accessible index → ∀ symbol, ∃ reached,
    left.next index symbol = .ok reached ∧
      right.next (image index) symbol = .ok (reached.map image)

/-- Both automata are empty, or neither is and their reachable parts are isomorphic. -/
def Isomorphic (left right : Dfa) : Prop :=
  (left.isEmpty ∧ right.isEmpty) ∨
    (¬ left.isEmpty ∧ ¬ right.isEmpty ∧ ∃ image, Isomorphism left right image)

section Single

variable {dfa : Dfa} {state : Option Nat} {index : Nat} {symbol : String} {word : List String}

theorem has_some (hindex : index < dfa.states.size) : dfa.Has (some index) := by
  intro number hnumber
  exact Option.some.inj hnumber ▸ hindex

theorem next_eq (hindex : index < dfa.states.size) (symbol : String) :
    dfa.next index symbol = .ok (dfa.target (some index) symbol) :=
  nextOrReject_eq (has_some hindex)

theorem target_eq (hindex : index < dfa.states.size) (symbol : String) :
    dfa.target (some index) symbol = Table.value? symbol dfa.states[index].transitions := by
  simp [target, hindex]

theorem verdict_eq (hindex : index < dfa.states.size) :
    dfa.verdict (some index) = dfa.states[index].accepting := by
  simp [verdict, hindex]

theorem reached_snoc (state : Option Nat) (word : List String) (symbol : String) :
    dfa.reached state (word ++ [symbol]) = dfa.target (dfa.reached state word) symbol := by
  simp [reached]

theorem exists_of_reached_snoc (hreached : dfa.reached state (word ++ [symbol]) = some index) :
    ∃ before, dfa.reached state word = some before ∧
      dfa.target (some before) symbol = some index := by
  rw [reached_snoc] at hreached
  cases hbefore : dfa.reached state word with
  | none => rw [hbefore] at hreached; cases hreached
  | some before => exact ⟨before, rfl, hbefore ▸ hreached⟩

namespace Closed

variable (hdfa : dfa.Closed)

include hdfa

theorem has_target (state : Option Nat) (symbol : String) : dfa.Has (dfa.target state symbol) := by
  intro index htarget
  obtain ⟨found, hfound, hvalue⟩ := exists_of_target_eq_some htarget
  exact hdfa.target found hfound _ (Table.mem_of_value?_eq_some hvalue)

theorem has_reached (word : List String) : dfa.Has (dfa.reached dfa.start word) :=
  has_reached_of_targets hdfa.has_target hdfa.start word

theorem walkFrom_eq (hindex : index < dfa.states.size) (word : List String) :
    dfa.walkFrom index word = .ok (dfa.reached (some index) word) := by
  induction word generalizing index with
  | nil => rfl
  | cons symbol rest ih =>
    have htarget := hdfa.has_target (some index) symbol
    rw [walkFrom, next_eq hindex, reached, List.foldl_cons, ← reached]
    cases hfound : dfa.target (some index) symbol with
    | none => rw [reached_none]; rfl
    | some target => exact ih (htarget target hfound)

theorem walk_eq (word : List String) : dfa.walk word = .ok (dfa.reached dfa.start word) := by
  unfold walk
  cases hstart : dfa.start with
  | none => rw [reached_none]
  | some start => exact hdfa.walkFrom_eq (hdfa.start start hstart) word

theorem accessible_iff :
    dfa.Accessible index ↔ ∃ word, dfa.reached dfa.start word = some index := by
  simp only [Accessible, hdfa.walk_eq, Except.ok.injEq]

theorem lt_size (hindex : dfa.Accessible index) : index < dfa.states.size := by
  obtain ⟨word, hword⟩ := hdfa.accessible_iff.1 hindex
  exact hdfa.has_reached word index hword

/-- In a closed automaton the entries of a state are its transitions. -/
theorem mem_transitions_iff (hindex : index < dfa.states.size) {target : Nat} :
    (symbol, target) ∈ dfa.states[index].transitions ↔
      dfa.target (some index) symbol = some target := by
  rw [target_eq hindex, Table.value?_eq_some_iff (hdfa.nodup _ (Array.getElem_mem hindex))]

end Closed

end Single

section Meeting

variable {left middle right : Dfa} {pair other : Nat × Nat}

/-- Some word leads to both states of the pair at once. -/
def Met (left right : Dfa) (pair : Nat × Nat) : Prop :=
  ∃ word, left.reached left.start word = some pair.1 ∧
    right.reached right.start word = some pair.2

/-- Both states accept or both do not, and they have transitions for the same symbols. -/
structure Alike (left right : Dfa) (pair : Nat × Nat) : Prop where
  verdict : left.verdict (some pair.1) = right.verdict (some pair.2)
  symbols : ∀ symbol, (left.target (some pair.1) symbol).isSome =
    (right.target (some pair.2) symbol).isSome

/-- The pairs share both halves or none. -/
def Compatible (pair other : Nat × Nat) : Prop :=
  pair.1 = other.1 ↔ pair.2 = other.2

/-- Pairs that meet are alike, and no state meets two others. -/
structure Matched (left right : Dfa) : Prop where
  alike : ∀ pair, Met left right pair → Alike left right pair
  compatible : ∀ pair other, Met left right pair → Met left right other → Compatible pair other

theorem Met.swap (hmet : Met left right pair) : Met right left pair.swap := by
  obtain ⟨word, hleft, hright⟩ := hmet
  exact ⟨word, hright, hleft⟩

/-- Where transitions for one symbol lead to from a pair that meets, meets too. -/
theorem Met.target (hmet : Met left right pair) {symbol : String}
    (hmine : left.target (some pair.1) symbol = some other.1)
    (htheirs : right.target (some pair.2) symbol = some other.2) : Met left right other := by
  obtain ⟨word, hleft, hright⟩ := hmet
  exact ⟨word ++ [symbol], by rw [reached_snoc, hleft, hmine],
    by rw [reached_snoc, hright, htheirs]⟩

/-- States that meet exist. -/
theorem Met.within (hmet : Met left right pair) (hleft : left.Closed) (hright : right.Closed) :
    pair.1 < left.states.size ∧ pair.2 < right.states.size := by
  obtain ⟨word, hmine, htheirs⟩ := hmet
  exact ⟨hleft.has_reached word _ hmine, hright.has_reached word _ htheirs⟩

namespace Matched

/-- An empty automaton has no state to meet another one. -/
theorem of_isEmpty (hempty : left.isEmpty) : Matched left right := by
  have hnever : ∀ pair, ¬ Met left right pair := by
    rintro pair ⟨word, hword, -⟩
    rw [Option.isNone_iff_eq_none.1 hempty, reached_none] at hword
    cases hword
  exact ⟨fun pair hmet => absurd hmet (hnever pair), fun pair _ hmet => absurd hmet (hnever pair)⟩

theorem symm (hmatched : Matched left right) : Matched right left where
  alike pair hmet :=
    have halike := hmatched.alike pair.swap hmet.swap
    ⟨halike.verdict.symm, fun symbol => (halike.symbols symbol).symm⟩
  compatible pair other hmet hother :=
    (hmatched.compatible pair.swap other.swap hmet.swap hother.swap).symm

/-- Neither automaton reads further than the other one. -/
theorem exists_reached (hmatched : Matched left right) (hempty : left.isEmpty = right.isEmpty)
    {word : List String} {index : Nat} (hword : left.reached left.start word = some index) :
    ∃ partner, right.reached right.start word = some partner := by
  induction word using List.reverseRecOn generalizing index with
  | nil =>
    have hstart : left.start = some index := hword
    rw [isEmpty, isEmpty, hstart] at hempty
    cases hright : right.start with
    | none => rw [hright] at hempty; cases hempty
    | some partner => exact ⟨partner, rfl⟩
  | append_singleton word symbol ih =>
    obtain ⟨before, hbefore, htarget⟩ := exists_of_reached_snoc hword
    obtain ⟨partner, hpartner⟩ := ih hbefore
    have hsymbols := (hmatched.alike (before, partner) ⟨word, hbefore, hpartner⟩).symbols symbol
    rw [htarget, Option.isSome_some] at hsymbols
    rw [reached_snoc, hpartner]
    exact Option.isSome_iff_exists.1 hsymbols.symm

theorem exists_met (hmatched : Matched left right) (hempty : left.isEmpty = right.isEmpty)
    (hleft : left.Closed) {index : Nat} (hindex : left.Accessible index) :
    ∃ partner, Met left right (index, partner) := by
  obtain ⟨word, hword⟩ := hleft.accessible_iff.1 hindex
  obtain ⟨partner, hpartner⟩ := hmatched.exists_reached hempty hword
  exact ⟨partner, word, hword, hpartner⟩

theorem refl (dfa : Dfa) : Matched dfa dfa := by
  have hsame : ∀ {first second}, Met dfa dfa (first, second) → first = second := by
    rintro first second ⟨word, hfirst, hsecond⟩
    exact Option.some.inj (hfirst.symm.trans hsecond)
  constructor
  · rintro ⟨first, second⟩ hmet
    obtain rfl := hsame hmet
    exact ⟨rfl, fun _ => rfl⟩
  · rintro ⟨first, second⟩ ⟨other, partner⟩ hmet hother
    obtain rfl := hsame hmet
    obtain rfl := hsame hother
    exact Iff.rfl

/-- States of the outer two automata meet by way of a state of the one in the middle. -/
theorem trans (hfirst : Matched left middle) (hsecond : Matched middle right)
    (hempty : left.isEmpty = middle.isEmpty) : Matched left right := by
  have hbetween : ∀ pair, Met left right pair →
      ∃ between, Met left middle (pair.1, between) ∧ Met middle right (between, pair.2) := by
    rintro pair ⟨word, hleft, hright⟩
    obtain ⟨between, hreached⟩ := hfirst.exists_reached hempty hleft
    exact ⟨between, ⟨word, hleft, hreached⟩, ⟨word, hreached, hright⟩⟩
  constructor
  · intro pair hmet
    obtain ⟨between, hbefore, hafter⟩ := hbetween pair hmet
    have hone := hfirst.alike _ hbefore
    have htwo := hsecond.alike _ hafter
    exact ⟨hone.verdict.trans htwo.verdict,
      fun symbol => (hone.symbols symbol).trans (htwo.symbols symbol)⟩
  · intro pair other hmet hother
    obtain ⟨_, hbefore, hafter⟩ := hbetween pair hmet
    obtain ⟨_, hotherBefore, hotherAfter⟩ := hbetween other hother
    exact (hfirst.compatible _ _ hbefore hotherBefore).trans
      (hsecond.compatible _ _ hafter hotherAfter)

end Matched

section Image

variable (hleft : left.Closed) (hright : right.Closed)

include hleft hright

/-- The partners in the pairs that meet are an isomorphism. -/
theorem Matched.exists_isomorphism (hmatched : Matched left right)
    (hempty : left.isEmpty = right.isEmpty) (hstart : ¬ left.isEmpty) :
    ∃ image, Isomorphism left right image := by
  have hpartner : ∀ index, ∃ partner, left.Accessible index → Met left right (index, partner) := by
    intro index
    by_cases hindex : left.Accessible index
    · obtain ⟨partner, hmet⟩ := hmatched.exists_met hempty hleft hindex
      exact ⟨partner, fun _ => hmet⟩
    · exact ⟨0, fun hnever => absurd hnever hindex⟩
  choose image himage using hpartner
  have hunique : ∀ {index partner}, Met left right (index, partner) → partner = image index := by
    rintro index partner ⟨word, hindex, hfound⟩
    have haccessible := hleft.accessible_iff.2 ⟨word, hindex⟩
    exact (hmatched.compatible _ _ ⟨word, hindex, hfound⟩ (himage index haccessible)).1 rfl
  have hreaches : ∀ {index partner}, Met left right (index, partner) →
      right.Accessible partner := by
    rintro index partner ⟨word, -, hfound⟩
    exact hright.accessible_iff.2 ⟨word, hfound⟩
  refine ⟨image, ⟨?_, ?_, ?_⟩, ?_, ?_, ?_⟩
  · exact fun index hindex => hreaches (himage index hindex)
  · intro index hindex other hother hsame
    exact (hmatched.compatible _ _ (himage index hindex) (himage other hother)).2 hsame
  · intro partner hpartner
    obtain ⟨index, hmet⟩ := hmatched.symm.exists_met hempty.symm hright hpartner
    have hindex : left.Accessible index := by
      obtain ⟨word, -, hword⟩ := hmet
      exact hleft.accessible_iff.2 ⟨word, hword⟩
    exact ⟨index, hindex, (hunique hmet.swap).symm⟩
  · cases hfirst : left.start with
    | none => exact absurd (by rw [isEmpty, hfirst]; rfl) hstart
    | some index =>
      obtain ⟨partner, hpartner⟩ :=
        hmatched.exists_reached hempty (show left.reached left.start [] = some index from hfirst)
      have hmet : Met left right (index, partner) := ⟨[], hfirst, hpartner⟩
      exact ⟨index, rfl, hunique hmet ▸ hpartner⟩
  · intro index hindex
    have hmet := himage index hindex
    have hown := hleft.lt_size hindex
    have hother := hright.lt_size (hreaches hmet)
    have hverdict := (hmatched.alike _ hmet).verdict
    rw [verdict_eq hown, verdict_eq hother] at hverdict
    exact ⟨_, _, state?_of_lt hown, state?_of_lt hother, hverdict.symm⟩
  · intro index hindex symbol
    have hmet := himage index hindex
    refine ⟨_, next_eq (hleft.lt_size hindex) symbol, ?_⟩
    rw [next_eq (hright.lt_size (hreaches hmet)), Except.ok.injEq]
    have hsymbols := (hmatched.alike _ hmet).symbols symbol
    cases hmine : left.target (some index) symbol with
    | none =>
      rw [hmine] at hsymbols
      exact Option.isSome_eq_false_iff.1 hsymbols.symm |> Option.isNone_iff_eq_none.1
    | some target =>
      rw [hmine] at hsymbols
      obtain ⟨partner, htheirs⟩ := Option.isSome_iff_exists.1 hsymbols.symm
      rw [htheirs, Option.map_some, hunique (hmet.target hmine htheirs)]

/-- Under an isomorphism, words lead to states that correspond. -/
theorem Isomorphism.reached_eq {image : Nat → Nat} (himage : Isomorphism left right image)
    (word : List String) :
    right.reached right.start word = (left.reached left.start word).map image := by
  induction word using List.reverseRecOn with
  | nil =>
    obtain ⟨index, hindex, hpartner⟩ := himage.start
    simp [reached, hindex, hpartner]
  | append_singleton word symbol ih =>
    rw [reached_snoc, reached_snoc, ih]
    cases hword : left.reached left.start word with
    | none => rfl
    | some index =>
      have hindex := hleft.accessible_iff.2 ⟨word, hword⟩
      obtain ⟨reached, hmine, htheirs⟩ := himage.next index hindex symbol
      rw [next_eq (hleft.lt_size hindex), Except.ok.injEq] at hmine
      rw [next_eq (hright.lt_size (himage.bijective.mapsTo hindex)), Except.ok.injEq] at htheirs
      rw [Option.map_some, htheirs, hmine]

/-- A word leads to a state and to its image, so that states which meet are alike and each meets no
other. -/
theorem Isomorphism.matched {image : Nat → Nat} (himage : Isomorphism left right image) :
    Matched left right := by
  have hmeets : ∀ {index partner}, Met left right (index, partner) →
      left.Accessible index ∧ partner = image index := by
    rintro index partner ⟨word, hmine, htheirs⟩
    rw [himage.reached_eq hleft hright, hmine] at htheirs
    exact ⟨hleft.accessible_iff.2 ⟨word, hmine⟩, (Option.some.inj htheirs).symm⟩
  constructor
  · rintro ⟨index, partner⟩ hmet
    obtain ⟨hindex, rfl⟩ := hmeets hmet
    have hown := hleft.lt_size hindex
    have hother := hright.lt_size (himage.bijective.mapsTo hindex)
    constructor
    · obtain ⟨state, found, hstate, hfound, haccepting⟩ := himage.accepting index hindex
      rw [state?_of_lt hown, Except.ok.injEq] at hstate
      rw [state?_of_lt hother, Except.ok.injEq] at hfound
      rw [verdict_eq hown, verdict_eq hother, hstate, hfound, haccepting]
    · intro symbol
      obtain ⟨reached, hmine, htheirs⟩ := himage.next index hindex symbol
      rw [next_eq hown, Except.ok.injEq] at hmine
      rw [next_eq hother, Except.ok.injEq] at htheirs
      rw [hmine, htheirs, Option.isSome_map]
  · rintro ⟨index, partner⟩ ⟨other, fellow⟩ hmet hother
    obtain ⟨hindex, rfl⟩ := hmeets hmet
    obtain ⟨haccessible, rfl⟩ := hmeets hother
    exact (himage.bijective.injOn.eq_iff hindex haccessible).symm

/-- Automata are isomorphic if both are empty or neither is, and the pairs that meet match. -/
theorem isomorphic_iff :
    Isomorphic left right ↔ left.isEmpty = right.isEmpty ∧ Matched left right := by
  constructor
  · rintro (⟨hnone, hneither⟩ | ⟨hstart, hother, image, himage⟩)
    · exact ⟨hnone.trans hneither.symm, Matched.of_isEmpty hnone⟩
    · rw [Bool.not_eq_true] at hstart hother
      exact ⟨hstart.trans hother.symm, himage.matched hleft hright⟩
  · rintro ⟨hempty, hmatched⟩
    by_cases hstart : left.isEmpty
    · exact Or.inl ⟨hstart, hempty ▸ hstart⟩
    · exact Or.inr ⟨hstart, hempty ▸ hstart,
        hmatched.exists_isomorphism hleft hright hempty hstart⟩

end Image

end Meeting

section Search

variable {left right : Dfa} {first second : State} {entries : Table String Nat}
  {pending pairs added : List (Nat × Nat)} {pair : Nat × Nat}

theorem State.sameSymbols_iff : first.sameSymbols second = true ↔ ∀ symbol,
    (Table.value? symbol first.transitions).isSome =
      (Table.value? symbol second.transitions).isSome := by
  have hlists : ∀ table other : Table String Nat,
      (table.all fun edge => (Table.value? edge.1 other).isSome) = true ↔
        ∀ symbol, (Table.value? symbol table).isSome → (Table.value? symbol other).isSome := by
    intro table other
    simp only [List.all_eq_true, Table.isSome_value?_iff]
    exact List.forall_mem_map.symm
  rw [sameSymbols, Bool.and_eq_true, hlists, hlists, ← forall_and]
  exact forall_congr' fun symbol => (Bool.eq_iff_iff.trans iff_def).symm

/-- What the comparison checks of two states is that they are alike. -/
theorem alike_iff (hmine : pair.1 < left.states.size) (htheirs : pair.2 < right.states.size) :
    Alike left right pair ↔
      (left.states[pair.1].accepting != right.states[pair.2].accepting ||
        !left.states[pair.1].sameSymbols right.states[pair.2]) = false := by
  rw [Bool.or_eq_false_iff, bne_eq_false_iff_eq, Bool.not_eq_false', State.sameSymbols_iff]
  simp only [← target_eq hmine, ← target_eq htheirs, ← verdict_eq hmine, ← verdict_eq htheirs]
  exact ⟨fun halike => ⟨halike.verdict, halike.symbols⟩, fun hparts => ⟨hparts.1, hparts.2⟩⟩

/-- No pair comes twice, and no two pairs share one half only. -/
structure Fitting (pairs : List (Nat × Nat)) : Prop where
  nodup : pairs.Nodup
  compatible : ∀ pair ∈ pairs, ∀ other ∈ pairs, Compatible pair other

theorem Compatible.symm {other : Nat × Nat} (hcompatible : Compatible pair other) :
    Compatible other pair :=
  (eq_comm.trans hcompatible).trans eq_comm

/-- A pair may be added if neither half has a partner yet. -/
theorem Fitting.snoc (hfitting : Fitting pairs)
    (hnew : ∀ other ∈ pairs, ¬ (other.1 = pair.1 ∨ other.2 = pair.2)) :
    Fitting (pairs ++ [pair]) := by
  have hapart : ∀ other ∈ pairs, Compatible other pair := fun other hother =>
    iff_of_false (fun hsame => hnew other hother (Or.inl hsame))
      (fun hsame => hnew other hother (Or.inr hsame))
  constructor
  · refine List.nodup_append.2 ⟨hfitting.nodup, List.nodup_singleton _, ?_⟩
    rintro other hother found hfound rfl
    rw [List.mem_singleton] at hfound
    exact hnew other hother (Or.inl (congrArg Prod.fst hfound))
  · intro one hone two htwo
    rw [List.mem_append, List.mem_singleton] at hone htwo
    rcases hone with hone | rfl <;> rcases htwo with htwo | rfl
    · exact hfitting.compatible one hone two htwo
    · exact hapart one hone
    · exact (hapart two htwo).symm
    · exact iff_of_true rfl rfl

/-- There are no more pairs than left halves. -/
theorem Fitting.length_le (hfitting : Fitting pairs) {bound : Nat}
    (hbound : ∀ pair ∈ pairs, pair.1 < bound) : pairs.length ≤ bound := by
  have hfirst : (pairs.map Prod.fst).Nodup := by
    refine List.Nodup.map_on (fun one hone two htwo hsame => ?_) hfitting.nodup
    exact Prod.ext hsame ((hfitting.compatible one hone two htwo).1 hsame)
  have hwithin : (pairs.map Prod.fst).toFinset ⊆ Finset.range bound := by
    intro index hindex
    rw [List.mem_toFinset, List.mem_map] at hindex
    obtain ⟨pair, hpair, rfl⟩ := hindex
    exact Finset.mem_range.2 (hbound pair hpair)
  calc pairs.length
      = (pairs.map Prod.fst).length := (List.length_map _).symm
    _ = (pairs.map Prod.fst).toFinset.card := (List.toFinset_card_of_nodup hfirst).symm
    _ ≤ (Finset.range bound).card := Finset.card_le_card hwithin
    _ = bound := Finset.card_range bound

/-- An entry and the transition for the same symbol lead to the halves of the pair. -/
def Facing (second : State) (entries : Table String Nat) (pair : Nat × Nat) : Prop :=
  ∃ symbol, (symbol, pair.1) ∈ entries ∧ Table.value? symbol second.transitions = some pair.2

theorem facing_cons {symbol : String} {mine theirs : Nat}
    (htheirs : Table.value? symbol second.transitions = some theirs) :
    Facing second ((symbol, mine) :: entries) pair ↔
      pair = (mine, theirs) ∨ Facing second entries pair := by
  constructor
  · rintro ⟨found, hfound, hvalue⟩
    rcases List.mem_cons.1 hfound with hfirst | hrest
    · obtain ⟨rfl, hmine⟩ := Prod.mk.inj hfirst
      exact Or.inl (Prod.ext hmine (Option.some.inj (hvalue.symm.trans htheirs)))
    · exact Or.inr ⟨found, hrest, hvalue⟩
  · rintro (rfl | ⟨found, hrest, hvalue⟩)
    · exact ⟨symbol, List.mem_cons_self, htheirs⟩
    · exact ⟨found, List.mem_cons_of_mem _ hrest, hvalue⟩

/-- The pairs of targets are taken in, or two of the pairs share one half only. -/
theorem matchTargets_cases (hfitting : Fitting pairs)
    (hentries : ∀ entry ∈ entries, (Table.value? entry.1 second.transitions).isSome) :
    (∃ added, matchTargets second entries pairs = some (pairs ++ added, added) ∧
      Fitting (pairs ++ added) ∧
      ∀ pair, pair ∈ pairs ++ added ↔ pair ∈ pairs ∨ Facing second entries pair) ∨
    (matchTargets second entries pairs = none ∧ ∃ pair other,
      (pair ∈ pairs ∨ Facing second entries pair) ∧ Facing second entries other ∧
        ¬ Compatible pair other) := by
  induction entries generalizing pairs with
  | nil =>
    refine Or.inl ⟨[], by rw [List.append_nil, matchTargets], by rwa [List.append_nil], ?_⟩
    simp [Facing]
  | cons entry rest ih =>
    obtain ⟨symbol, mine⟩ := entry
    obtain ⟨hentry, hrest⟩ := List.forall_mem_cons.1 hentries
    obtain ⟨theirs, htheirs⟩ := Option.isSome_iff_exists.1 hentry
    rw [matchTargets, htheirs]
    simp only [Option.bind_eq_bind, Option.bind_some, facing_cons htheirs]
    split
    · next hshared =>
      -- one half has a partner already, so the pair is known or shares one half only
      split
      · next hknown =>
        rcases ih hfitting hrest with
          ⟨added, htaken, hnext, hmem⟩ | ⟨hnone, one, other, hone, hother, hapart⟩
        · refine Or.inl ⟨added, htaken, hnext, fun pair => ?_⟩
          rw [hmem, or_left_comm]
          exact (or_iff_right_of_imp fun hsame => Or.inl (hsame ▸ hknown)).symm
        · exact Or.inr ⟨hnone, one, other, hone.imp_right Or.inr, Or.inr hother, hapart⟩
      · next hunknown =>
        obtain ⟨one, hone, hhalf⟩ := List.any_eq_true.1 hshared
        refine Or.inr ⟨rfl, one, (mine, theirs), Or.inl hone, Or.inl rfl, fun hboth => ?_⟩
        have hsame : one = (mine, theirs) := by
          rcases of_decide_eq_true hhalf with hfirst | hsecond
          · exact Prod.ext hfirst (hboth.1 hfirst)
          · exact Prod.ext (hboth.2 hsecond) hsecond
        exact hunknown (hsame ▸ hone)
    · next hnew =>
      have hsnoc : Fitting (pairs ++ [(mine, theirs)]) := hfitting.snoc fun other hother hhalf =>
        hnew (List.any_eq_true.2 ⟨other, hother, decide_eq_true hhalf⟩)
      have hmem : ∀ pair, pair ∈ pairs ++ [(mine, theirs)] ∨ Facing second rest pair ↔
          pair ∈ pairs ∨ pair = (mine, theirs) ∨ Facing second rest pair := by
        intro pair
        rw [List.mem_append, List.mem_singleton, or_assoc]
      rcases ih hsnoc hrest with
        ⟨added, htaken, hnext, htargets⟩ | ⟨hnone, one, other, hone, hother, hapart⟩
      · simp only [hmem] at htargets
        rw [htaken]
        rw [List.append_assoc] at htaken hnext
        simp only [List.append_assoc] at htargets
        exact Or.inl ⟨(mine, theirs) :: added, by rw [List.append_assoc]; rfl, hnext, htargets⟩
      · rw [hnone]
        exact Or.inr ⟨rfl, one, other, (hmem one).1 hone, Or.inr hother, hapart⟩

theorem Alike.isSome_value? (halike : Alike left right pair) (hmine : pair.1 < left.states.size)
    (htheirs : pair.2 < right.states.size) : ∀ entry ∈ left.states[pair.1].transitions,
      (Table.value? entry.1 right.states[pair.2].transitions).isSome := by
  intro entry hentry
  rw [← target_eq htheirs, ← halike.symbols, target_eq hmine, Table.isSome_value?_iff]
  exact List.mem_map_of_mem hentry

theorem Closed.facing_iff (hleft : left.Closed) (hmine : pair.1 < left.states.size)
    (htheirs : pair.2 < right.states.size) (other : Nat × Nat) :
    Facing right.states[pair.2] left.states[pair.1].transitions other ↔ ∃ symbol,
      left.target (some pair.1) symbol = some other.1 ∧
        right.target (some pair.2) symbol = some other.2 := by
  simp only [Facing, hleft.mem_transitions_iff hmine, target_eq htheirs]

/-- Where the comparison stands: the pairs that have come up fit and meet, and a pair that is no
longer pending is alike and leads to pairs that have come up. -/
structure Matching (left right : Dfa) (pending pairs : List (Nat × Nat)) : Prop where
  fitting : Fitting pairs
  pending_subset : pending ⊆ pairs
  start : ∀ pair, left.start = some pair.1 → right.start = some pair.2 → pair ∈ pairs
  met : ∀ pair ∈ pairs, Met left right pair
  settled : ∀ pair ∈ pairs, pair ∉ pending → Alike left right pair ∧
    ∀ symbol other, left.target (some pair.1) symbol = some other.1 →
      right.target (some pair.2) symbol = some other.2 → other ∈ pairs

namespace Matching

theorem init (hmine : left.start = some pair.1) (htheirs : right.start = some pair.2) :
    Matching left right [pair] [pair] where
  fitting := ⟨List.nodup_singleton _, by simp [Compatible]⟩
  pending_subset := List.Subset.refl _
  start := by
    intro other hfirst hsecond
    have hfirsts := Option.some.inj (hfirst.symm.trans hmine)
    have hseconds := Option.some.inj (hsecond.symm.trans htheirs)
    exact List.mem_singleton.2 (Prod.ext hfirsts hseconds)
  met := List.forall_mem_singleton.2 ⟨[], hmine, htheirs⟩
  settled := fun _ hpair hpending => absurd hpair hpending

/-- A pair of states that are alike is settled when the new pairs it leads to are made pending. -/
theorem step (hmatching : Matching left right (pair :: pending) pairs)
    (halike : Alike left right pair) (hfitting : Fitting (pairs ++ added))
    (hadded : ∀ other, other ∈ pairs ++ added ↔ other ∈ pairs ∨ ∃ symbol,
      left.target (some pair.1) symbol = some other.1 ∧
        right.target (some pair.2) symbol = some other.2) :
    Matching left right (pending ++ added) (pairs ++ added) where
  fitting := hfitting
  pending_subset := by
    have hpending := (List.cons_subset.1 hmatching.pending_subset).2
    exact List.append_subset.2 ⟨List.subset_append_of_subset_left _ hpending,
      List.subset_append_right _ _⟩
  start := fun other hfirst hsecond => List.mem_append_left _ (hmatching.start other hfirst hsecond)
  met := by
    intro other hother
    rcases (hadded other).1 hother with hold | ⟨symbol, hmine, htheirs⟩
    · exact hmatching.met other hold
    · exact (hmatching.met pair (hmatching.pending_subset List.mem_cons_self)).target hmine htheirs
  settled := by
    intro found hfound hdone
    rw [List.mem_append, not_or] at hdone
    have hold : found ∈ pairs := (List.mem_append.1 hfound).resolve_right hdone.2
    -- only the pair itself is settled by this step
    by_cases hsame : found = pair
    · subst hsame
      exact ⟨halike, fun symbol other hmine htheirs =>
        (hadded other).2 (Or.inr ⟨symbol, hmine, htheirs⟩)⟩
    · have hsettled : found ∉ pair :: pending := List.not_mem_cons_of_ne_of_not_mem hsame hdone.1
      obtain ⟨hfoundAlike, htargets⟩ := hmatching.settled found hold hsettled
      exact ⟨hfoundAlike, fun symbol other hmine htheirs =>
        List.mem_append_left _ (htargets symbol other hmine htheirs)⟩

/-- If nothing is pending any more, every pair that meets has come up. -/
theorem matched (hmatching : Matching left right [] pairs) : Matched left right := by
  have hmem : ∀ pair, Met left right pair → pair ∈ pairs := by
    rintro pair ⟨word, hmine, htheirs⟩
    induction word using List.reverseRecOn generalizing pair with
    | nil => exact hmatching.start pair hmine htheirs
    | append_singleton word symbol ih =>
      obtain ⟨before, hbefore, htarget⟩ := exists_of_reached_snoc hmine
      obtain ⟨partner, hpartner, hother⟩ := exists_of_reached_snoc htheirs
      have hpair := ih (before, partner) hbefore hpartner
      exact (hmatching.settled _ hpair List.not_mem_nil).2 symbol pair htarget hother
  constructor
  · exact fun pair hmet => (hmatching.settled pair (hmem pair hmet) List.not_mem_nil).1
  · exact fun pair other hmet hother =>
      hmatching.fitting.compatible pair (hmem pair hmet) other (hmem other hother)

end Matching

/-- The comparison ends with nothing pending, or at pairs that do not match. -/
theorem matchFrom_spec (hleft : left.Closed) (hright : right.Closed) {fuel : Nat}
    (hmatching : Matching left right pending pairs)
    (hfuel : left.states.size + pending.length < fuel + pairs.length) :
    (matchFrom left right fuel pending pairs = .ok true ∧ Matched left right) ∨
      (matchFrom left right fuel pending pairs = .ok false ∧ ¬ Matched left right) := by
  induction fuel generalizing pending pairs with
  | zero =>
    have hlength := hmatching.fitting.length_le fun pair hpair =>
      ((hmatching.met pair hpair).within hleft hright).1
    omega
  | succ fuel ih =>
    cases pending with
    | nil => exact Or.inl ⟨rfl, hmatching.matched⟩
    | cons pair pending =>
      have hpair : pair ∈ pairs := hmatching.pending_subset List.mem_cons_self
      have hmet := hmatching.met pair hpair
      obtain ⟨hmine, htheirs⟩ := hmet.within hleft hright
      simp only [matchFrom, state?_of_lt hmine, state?_of_lt htheirs, bind, Except.bind]
      split
      · next hdiffer =>
        refine Or.inr ⟨rfl, fun hmatched => ?_⟩
        rw [(alike_iff hmine htheirs).1 (hmatched.alike pair hmet)] at hdiffer
        exact Bool.false_ne_true hdiffer
      · next hsame =>
        have halike := (alike_iff hmine htheirs).2 (Bool.eq_false_iff.2 hsame)
        have hfacing := hleft.facing_iff hmine htheirs
        rcases matchTargets_cases hmatching.fitting (halike.isSome_value? hmine htheirs) with
          ⟨added, htaken, hfitting, hadded⟩ | ⟨hnone, one, other, hone, hother, hapart⟩
        · rw [htaken]
          simp only [hfacing] at hadded
          apply ih (hmatching.step halike hfitting hadded)
          rw [List.length_append, List.length_append]
          rw [List.length_cons] at hfuel
          omega
        · rw [hnone]
          refine Or.inr ⟨rfl, fun hmatched => hapart ?_⟩
          have hmeets : ∀ found, Facing right.states[pair.2] left.states[pair.1].transitions found →
              Met left right found := by
            intro found hfound
            obtain ⟨symbol, hfirst, hsecond⟩ := (hfacing found).1 hfound
            exact hmet.target hfirst hsecond
          exact hmatched.compatible one other (hone.elim (hmatching.met one) (hmeets one))
            (hmeets other hother)

/-- The comparison succeeds, and says whether the reachable parts are isomorphic. -/
theorem isIsomorphic_spec (hleft : left.Closed) (hright : right.Closed) :
    (left.isIsomorphic right = .ok true ∧ Isomorphic left right) ∨
      (left.isIsomorphic right = .ok false ∧ ¬ Isomorphic left right) := by
  rw [isomorphic_iff hleft hright, isIsomorphic, isEmpty, isEmpty]
  cases hmine : left.start with
  | none =>
    cases htheirs : right.start with
    | none => exact Or.inl ⟨rfl, rfl, Matched.of_isEmpty (Option.isNone_iff_eq_none.2 hmine)⟩
    | some theirs => exact Or.inr ⟨rfl, fun hboth => Bool.false_ne_true hboth.1.symm⟩
  | some mine =>
    cases htheirs : right.start with
    | none => exact Or.inr ⟨rfl, fun hboth => Bool.false_ne_true hboth.1⟩
    | some theirs =>
      rw [Option.isNone_some, Option.isNone_some, eq_self, true_and]
      exact matchFrom_spec hleft hright (Matching.init hmine htheirs) (Nat.lt_succ_self _)

/-- Between closed automata the comparison is an equivalence relation. -/
theorem equivalence_isIsomorphic :
    Equivalence fun left right : {dfa : Dfa // dfa.Closed} =>
      left.1.isIsomorphic right.1 = .ok true := by
  have hiff : ∀ left right : {dfa : Dfa // dfa.Closed},
      left.1.isIsomorphic right.1 = .ok true ↔
        left.1.isEmpty = right.1.isEmpty ∧ Matched left.1 right.1 := by
    intro left right
    rw [← isomorphic_iff left.2 right.2]
    rcases isIsomorphic_spec left.2 right.2 with ⟨hanswer, hsame⟩ | ⟨hanswer, hdiffer⟩
    · exact iff_of_true hanswer hsame
    · exact iff_of_false (by rw [hanswer]; simp) hdiffer
  constructor
  · exact fun dfa => (hiff dfa dfa).2 ⟨rfl, Matched.refl dfa.1⟩
  · intro left right hsame
    obtain ⟨hempty, hmatched⟩ := (hiff left right).1 hsame
    exact (hiff right left).2 ⟨hempty.symm, hmatched.symm⟩
  · intro first second third hfirst hsecond
    obtain ⟨hempty, hmatched⟩ := (hiff first second).1 hfirst
    obtain ⟨hother, hfurther⟩ := (hiff second third).1 hsecond
    exact (hiff first third).2 ⟨hempty.trans hother, hmatched.trans hfurther hempty⟩

/-- The comparison of numberings says whether the reachable parts of two automata are isomorphic,
and it is an equivalence relation. -/
theorem isIsomorphic_exact :
    (∀ left right : Dfa, left.Closed → right.Closed →
      (left.isIsomorphic right = .ok true ↔ Isomorphic left right) ∧
      (left.isIsomorphic right = .ok false ↔ ¬ Isomorphic left right)) ∧
    Equivalence fun left right : {dfa : Dfa // dfa.Closed} =>
      left.1.isIsomorphic right.1 = .ok true := by
  refine ⟨fun left right hleft hright => ?_, equivalence_isIsomorphic⟩
  rcases isIsomorphic_spec hleft hright with ⟨hanswer, hsame⟩ | ⟨hanswer, hdiffer⟩
  · simp [hanswer, hsame]
  · simp [hanswer, hdiffer]

/-- It is enough to look at the entries of the transition tables. -/
theorem closed_of_entries {dfa : Dfa} (hstart : dfa.Has dfa.start)
    (hentries : ∀ state ∈ dfa.states, (∀ entry ∈ state.transitions, entry.2 < dfa.states.size) ∧
      (state.transitions.map Prod.fst).Nodup) : dfa.Closed where
  start := hstart
  target state hstate := (hentries state hstate).1
  nodup state hstate := (hentries state hstate).2

/-- The reachable states of `redundantDfa` under other numbers, with other states out of reach. -/
def renumberedDfa : Dfa where
  states := #[{ id := 0, accepting := true, transitions := [("a", 1)] },
    { id := 1, transitions := [("a", 0), ("b", 3)] },
    { id := 2, transitions := [("b", 3), ("a", 0)] }, { id := 3, transitions := [("b", 3)] },
    { id := 4, transitions := [("c", 4)] }]
  alphabet := ["a", "b", "c"]
  start := some 2

theorem closed_redundantDfa : redundantDfa.Closed := by
  apply closed_of_entries
  · rintro _ ⟨⟩
    decide
  · decide

theorem closed_renumberedDfa : renumberedDfa.Closed := by
  apply closed_of_entries
  · rintro _ ⟨⟩
    decide
  · decide

theorem isIsomorphic_exact_renumberedDfa :
    redundantDfa.Closed ∧ renumberedDfa.Closed ∧
      redundantDfa.isIsomorphic renumberedDfa = .ok true ∧
      Isomorphic redundantDfa renumberedDfa :=
  ⟨closed_redundantDfa, closed_renumberedDfa, rfl,
    (isIsomorphic_exact.1 _ _ closed_redundantDfa closed_renumberedDfa).1.1 rfl⟩

end Search

end RegexAutomata.Dfa
