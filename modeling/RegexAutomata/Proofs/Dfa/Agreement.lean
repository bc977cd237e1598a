import Mathlib.Data.Finset.Option
import Mathlib.Data.Finset.Prod
import RegexAutomata.Dfa.Compare
import RegexAutomata.Proofs.Dfa.Walk

/-!
# Comparing two automata side by side

Two automata are walked side by side from their starts, where a missing state stands for the
implicit rejecting one.  Every pair of states that comes up is reached by some word, and a pair that
has been looked at agrees on acceptance and leads to pairs that have come up too, or to two
rejecting states.  So either some word tells the automata apart, or none does.
-/

namespace RegexAutomata

def IsSingle (symbol : String) : Prop :=
  ∃ character, symbol = String.singleton character

/-- A word of single characters is the word of a text. -/
theorem exists_symbolsOf_eq {word : List String} (hword : ∀ symbol ∈ word, IsSingle symbol) :
    ∃ text, symbolsOf text = word := by
  induction word with
  | nil => exact ⟨"", rfl⟩
  | cons symbol rest ih =>
    rw [List.forall_mem_cons] at hword
    obtain ⟨⟨character, rfl⟩, hrest⟩ := hword
    obtain ⟨text, rfl⟩ := ih hrest
    exact ⟨String.ofList (character :: text.toList), by simp [symbolsOf]⟩

namespace Dfa

/-- The state exists, or it is the implicit rejecting one. -/
def Has (dfa : Dfa) (state : Option Nat) : Prop :=
  ∀ index, state = some index → index < dfa.states.size

/-- The start and all targets exist, and transitions are for single characters of the alphabet. -/
structure WellFormed (dfa : Dfa) : Prop where
  start : dfa.Has dfa.start
  target : ∀ state ∈ dfa.states, ∀ symbol, dfa.Has (Table.value? symbol state.transitions)
  symbol : ∀ state ∈ dfa.states, ∀ symbol target,
    Table.value? symbol state.transitions = some target → symbol ∈ dfa.alphabet
  character : ∀ symbol ∈ dfa.alphabet, IsSingle symbol

def target (dfa : Dfa) (state : Option Nat) (symbol : String) : Option Nat :=
  state.bind fun index => dfa.states[index]?.bind fun found => Table.value? symbol found.transitions

def verdict (dfa : Dfa) (state : Option Nat) : Bool :=
  state.any fun index => dfa.states[index]?.any State.accepting

/-- The state in which a word ends that is read from a given state on. -/
def reached (dfa : Dfa) (state : Option Nat) (word : List String) : Option Nat :=
  word.foldl dfa.target state

section Single

variable {dfa : Dfa} {state : Option Nat} {symbol : String}

theorem state?_of_lt {index : Nat} (hindex : index < dfa.states.size) :
    dfa.state? index = .ok dfa.states[index] :=
  state?_eq_ok_iff.2 (Array.getElem?_eq_getElem hindex)

theorem nextOrReject_eq (hstate : dfa.Has state) :
    dfa.nextOrReject state symbol = .ok (dfa.target state symbol) := by
  cases state with
  | none => rfl
  | some index =>
    have hindex := hstate index rfl
    simp [nextOrReject, next, target, state?_of_lt hindex, hindex, bind, Except.bind, pure,
      Except.pure]

theorem acceptsAt_eq (hstate : dfa.Has state) :
    dfa.acceptsAt state = .ok (dfa.verdict state) := by
  cases state with
  | none => rfl
  | some index =>
    have hindex := hstate index rfl
    simp [acceptsAt, verdict, state?_of_lt hindex, hindex, bind, Except.bind, pure, Except.pure]

theorem reached_none (dfa : Dfa) (word : List String) : dfa.reached none word = none := by
  induction word with
  | nil => rfl
  | cons symbol rest ih => exact ih

theorem exists_of_target_eq_some {index : Nat} (htarget : dfa.target state symbol = some index) :
    ∃ found ∈ dfa.states, Table.value? symbol found.transitions = some index := by
  obtain ⟨number, rfl, hnumber⟩ := Option.bind_eq_some_iff.1 htarget
  obtain ⟨found, hfound, hvalue⟩ := Option.bind_eq_some_iff.1 hnumber
  exact ⟨found, Array.mem_of_getElem? hfound, hvalue⟩

/-- If all targets exist, every word leads to states that exist. -/
theorem has_reached_of_targets (htarget : ∀ state symbol, dfa.Has (dfa.target state symbol))
    (hstate : dfa.Has state) (word : List String) : dfa.Has (dfa.reached state word) := by
  induction word generalizing state with
  | nil => exact hstate
  | cons symbol rest ih => exact ih (htarget state symbol)

namespace WellFormed

variable (hdfa : dfa.WellFormed)

include hdfa

theorem has_target (state : Option Nat) (symbol : String) : dfa.Has (dfa.target state symbol) := by
  intro index htarget
  obtain ⟨found, hfound, hvalue⟩ := exists_of_target_eq_some htarget
  exact hdfa.target found hfound symbol index hvalue

theorem has_reached (hstate : dfa.Has state) (word : List String) :
    dfa.Has (dfa.reached state word) :=
  has_reached_of_targets hdfa.has_target hstate word

theorem target_of_not_mem (hsymbol : symbol ∉ dfa.alphabet) (state : Option Nat) :
    dfa.target state symbol = none := by
  rw [Option.eq_none_iff_forall_ne_some]
  intro index htarget
  obtain ⟨found, hfound, hvalue⟩ := exists_of_target_eq_some htarget
  exact hsymbol (hdfa.symbol found hfound symbol index hvalue)

/-- In a well-formed automaton reading a text goes on until it ends in a state, which may be the
rejecting one, and that state decides. -/
theorem acceptsFrom_eq {index : Nat} (hindex : index < dfa.states.size) (characters : List Char) :
    dfa.acceptsFrom index characters =
      .ok (dfa.verdict (dfa.reached (some index) (characters.map String.singleton))) := by
  induction characters generalizing index with
  | nil =>
    simp [acceptsFrom, verdict, reached, state?_of_lt hindex, hindex, bind, Except.bind, pure,
      Except.pure]
  | cons character rest ih =>
    have hstate : dfa.Has (some index) := by
      intro number hnumber
      exact Option.some.inj hnumber ▸ hindex
    have hnext : dfa.next index (String.singleton character) =
        .ok (dfa.target (some index) (String.singleton character)) := nextOrReject_eq hstate
    have htarget := hdfa.has_target (some index) (String.singleton character)
    rw [acceptsFrom, hnext, List.map_cons, reached, List.foldl_cons, ← reached]
    cases hfound : dfa.target (some index) (String.singleton character) with
    | none => rw [reached_none]; rfl
    | some target => exact ih (htarget target hfound)

/-- Every text is accepted or rejected. -/
theorem accepts_eq (text : String) :
    dfa.accepts text = .ok (dfa.verdict (dfa.reached dfa.start (symbolsOf text))) := by
  unfold accepts
  cases hstart : dfa.start with
  | none => rw [reached_none]; rfl
  | some start => exact hdfa.acceptsFrom_eq (hdfa.start start hstart) text.toList

end WellFormed

end Single

section Pairs

variable {left right : Dfa} {pair : StatePair} {symbols : List String}

def pairTarget (left right : Dfa) (pair : StatePair) (symbol : String) : StatePair :=
  (left.target pair.1 symbol, right.target pair.2 symbol)

def pairReached (left right : Dfa) (pair : StatePair) (word : List String) : StatePair :=
  (left.reached pair.1 word, right.reached pair.2 word)

/-- Both states accept, or both do not. -/
def Agree (left right : Dfa) (pair : StatePair) : Prop :=
  left.verdict pair.1 = right.verdict pair.2

def HasPair (left right : Dfa) (pair : StatePair) : Prop :=
  left.Has pair.1 ∧ right.Has pair.2

theorem pairReached_cons (symbol : String) (word : List String) :
    pairReached left right pair (symbol :: word) =
      pairReached left right (pairTarget left right pair symbol) word := rfl

theorem pairReached_snoc (symbol : String) (word : List String) :
    pairReached left right pair (word ++ [symbol]) =
      pairTarget left right (pairReached left right pair word) symbol := by
  simp [pairReached, pairTarget, reached]

theorem pairReached_rejecting (word : List String) :
    pairReached left right (none, none) word = (none, none) := by
  rw [pairReached, reached_none, reached_none]

theorem freshPairs_cons (hpair : HasPair left right pair) (symbol : String)
    (seen : List StatePair) :
    freshPairs left right pair (symbol :: symbols) seen =
      if pairTarget left right pair symbol = (none, none) ∨
          pairTarget left right pair symbol ∈ seen then
        freshPairs left right pair symbols seen
      else do
        let others ←
          freshPairs left right pair symbols (pairTarget left right pair symbol :: seen)
        return pairTarget left right pair symbol :: others := by
  rw [freshPairs, nextOrReject_eq hpair.1, nextOrReject_eq hpair.2]
  rfl

/-- The new pairs are those that a symbol leads to and that have not been seen. -/
theorem freshPairs_eq (hpair : HasPair left right pair) (seen : List StatePair) :
    ∃ fresh, freshPairs left right pair symbols seen = .ok fresh ∧ fresh.Nodup ∧
      ∀ found, found ∈ fresh ↔ found ∉ seen ∧ found ≠ (none, none) ∧
        ∃ symbol ∈ symbols, found = pairTarget left right pair symbol := by
  induction symbols generalizing seen with
  | nil => exact ⟨[], rfl, List.nodup_nil, by simp⟩
  | cons symbol symbols ih =>
    rw [freshPairs_cons hpair]
    split
    · next hold =>
      obtain ⟨fresh, hfresh, hnodup, hmem⟩ := ih seen
      refine ⟨fresh, hfresh, hnodup, fun found => ?_⟩
      rw [hmem, List.exists_mem_cons_iff]
      grind
    · next hnew =>
      obtain ⟨fresh, hfresh, hnodup, hmem⟩ := ih (pairTarget left right pair symbol :: seen)
      refine ⟨pairTarget left right pair symbol :: fresh, by rw [hfresh]; rfl, ?_, fun found => ?_⟩
      · refine List.nodup_cons.2 ⟨fun hagain => ?_, hnodup⟩
        exact ((hmem _).1 hagain).1 List.mem_cons_self
      · rw [List.mem_cons, hmem, List.mem_cons, List.exists_mem_cons_iff]
        grind

/-- Where the comparison stands: every pair that has come up is reached by a word, and a pair that
is no longer pending agrees and leads to pairs that have come up, or to two rejecting states. -/
structure Comparing (left right : Dfa) (symbols : List String) (start : StatePair)
    (pending seen : List StatePair) : Prop where
  start_mem : start ∈ seen
  nodup : seen.Nodup
  pending_nodup : pending.Nodup
  pending_subset : pending ⊆ seen
  sound : ∀ pair ∈ seen, ∃ word, (∀ symbol ∈ word, symbol ∈ symbols) ∧
    pairReached left right start word = pair
  settled : ∀ pair ∈ seen, pair ∉ pending → Agree left right pair ∧
    ∀ symbol ∈ symbols, pairTarget left right pair symbol = (none, none) ∨
      pairTarget left right pair symbol ∈ seen

namespace Comparing

variable {start : StatePair} {pending seen fresh : List StatePair}

theorem init : Comparing left right symbols start [start] [start] where
  start_mem := List.mem_cons_self
  nodup := List.nodup_singleton _
  pending_nodup := List.nodup_singleton _
  pending_subset := List.Subset.refl _
  sound := by
    intro pair hpair
    exact ⟨[], List.forall_mem_nil _, (List.mem_singleton.1 hpair).symm⟩
  settled := fun _ hseen hpending => absurd hseen hpending

theorem hasPair (hhas : ∀ word, HasPair left right (pairReached left right start word))
    (hcomparing : Comparing left right symbols start pending seen) (hpair : pair ∈ seen) :
    HasPair left right pair := by
  obtain ⟨word, -, rfl⟩ := hcomparing.sound pair hpair
  exact hhas word

/-- A pair that agrees is settled when the new pairs it leads to are made pending. -/
theorem step (hcomparing : Comparing left right symbols start (pair :: pending) seen)
    (hagree : Agree left right pair) (hnodup : fresh.Nodup)
    (hfresh : ∀ found, found ∈ fresh ↔ found ∉ seen ∧ found ≠ (none, none) ∧
      ∃ symbol ∈ symbols, found = pairTarget left right pair symbol) :
    Comparing left right symbols start (pending ++ fresh) (fresh ++ seen) := by
  have hpair : pair ∈ seen := hcomparing.pending_subset List.mem_cons_self
  have hpending : pending ⊆ seen := fun other hother =>
    hcomparing.pending_subset (List.mem_cons_of_mem _ hother)
  have hparts := List.nodup_cons.1 hcomparing.pending_nodup
  refine ⟨List.mem_append_right _ hcomparing.start_mem, ?_, ?_, ?_, ?_, ?_⟩
  · apply List.Nodup.append hnodup hcomparing.nodup
    exact fun found hfound hseen => ((hfresh found).1 hfound).1 hseen
  · apply List.Nodup.append hparts.2 hnodup
    exact fun found hfound hnew => ((hfresh found).1 hnew).1 (hpending hfound)
  · apply List.append_subset.2
    exact ⟨List.subset_append_of_subset_right _ hpending, List.subset_append_left _ _⟩
  · intro found hfound
    rcases List.mem_append.1 hfound with hnew | hold
    · obtain ⟨-, -, symbol, hsymbol, rfl⟩ := (hfresh found).1 hnew
      obtain ⟨word, hword, rfl⟩ := hcomparing.sound pair hpair
      refine ⟨word ++ [symbol], ?_, pairReached_snoc symbol word⟩
      rw [List.forall_mem_append]
      exact ⟨hword, List.forall_mem_singleton.2 hsymbol⟩
    · exact hcomparing.sound found hold
  · intro found hfound hdone
    rw [List.mem_append, not_or] at hdone
    have hold : found ∈ seen := (List.mem_append.1 hfound).resolve_left hdone.2
    by_cases hsame : found = pair
    · subst hsame
      refine ⟨hagree, fun symbol hsymbol => ?_⟩
      by_cases hknown : pairTarget left right found symbol ∈ seen
      · exact Or.inr (List.mem_append_right _ hknown)
      · by_cases hrejecting : pairTarget left right found symbol = (none, none)
        · exact Or.inl hrejecting
        · exact Or.inr (List.mem_append_left _
            ((hfresh _).2 ⟨hknown, hrejecting, symbol, hsymbol, rfl⟩))
    · have hsettled : found ∉ pair :: pending := by
        rw [List.mem_cons, not_or]
        exact ⟨hsame, hdone.1⟩
      obtain ⟨hagrees, htargets⟩ := hcomparing.settled found hold hsettled
      refine ⟨hagrees, fun symbol hsymbol => ?_⟩
      exact (htargets symbol hsymbol).imp_right (List.mem_append_right _)

/-- There are no more pairs than pairs of states, the rejecting ones included. -/
theorem length_le (hhas : ∀ word, HasPair left right (pairReached left right start word))
    (hcomparing : Comparing left right symbols start pending seen) :
    seen.length ≤ (left.states.size + 1) * (right.states.size + 1) := by
  have hwithin : seen.toFinset ⊆ (Finset.range left.states.size).insertNone ×ˢ
      (Finset.range right.states.size).insertNone := by
    intro pair hpair
    have hwithin := hcomparing.hasPair hhas (List.mem_toFinset.1 hpair)
    simp only [Finset.mem_product, Finset.mem_insertNone, Finset.mem_range]
    exact ⟨fun index hindex => hwithin.1 index hindex, fun index hindex => hwithin.2 index hindex⟩
  calc seen.length
      = seen.toFinset.card := (List.toFinset_card_of_nodup hcomparing.nodup).symm
    _ ≤ ((Finset.range left.states.size).insertNone ×ˢ
          (Finset.range right.states.size).insertNone).card := Finset.card_le_card hwithin
    _ = (left.states.size + 1) * (right.states.size + 1) := by simp

/-- If nothing is pending any more, every word leads to two states that agree. -/
theorem agree_of_done (hleft : left.WellFormed) (hright : right.WellFormed)
    (hsymbols : ∀ symbol, symbol ∈ symbols ↔ symbol ∈ left.alphabet ∨ symbol ∈ right.alphabet)
    (hcomparing : Comparing left right symbols start [] seen) (hpair : pair ∈ seen)
    (word : List String) : Agree left right (pairReached left right pair word) := by
  induction word generalizing pair with
  | nil => exact (hcomparing.settled pair hpair List.not_mem_nil).1
  | cons symbol rest ih =>
    rw [pairReached_cons]
    have hnext : pairTarget left right pair symbol = (none, none) ∨
        pairTarget left right pair symbol ∈ seen := by
      by_cases hsymbol : symbol ∈ symbols
      · exact (hcomparing.settled pair hpair List.not_mem_nil).2 symbol hsymbol
      · rw [hsymbols, not_or] at hsymbol
        rw [pairTarget, hleft.target_of_not_mem hsymbol.1, hright.target_of_not_mem hsymbol.2]
        exact Or.inl rfl
    rcases hnext with hrejecting | hseen
    · rw [hrejecting, pairReached_rejecting]
      rfl
    · exact ih hseen

end Comparing

/-- Where words lead to states that exist only, the comparison ends with nothing pending, or at a
pair that some word tells apart. -/
theorem agreeFrom_spec {start : StatePair}
    (hhas : ∀ word, HasPair left right (pairReached left right start word)) {fuel : Nat}
    {pending seen : List StatePair}
    (hcomparing : Comparing left right symbols start pending seen)
    (hfuel : (left.states.size + 1) * (right.states.size + 1) + pending.length ≤
      fuel + seen.length) :
    (agreeFrom left right symbols fuel pending seen = .ok true ∧
        ∃ final, Comparing left right symbols start [] final) ∨
      (agreeFrom left right symbols fuel pending seen = .ok false ∧
        ∃ word, (∀ symbol ∈ word, symbol ∈ symbols) ∧
          ¬ Agree left right (pairReached left right start word)) := by
  induction fuel generalizing pending seen with
  | zero =>
    have hlength := hcomparing.length_le hhas
    obtain rfl : pending = [] := List.length_eq_zero_iff.1 (by omega)
    exact Or.inl ⟨rfl, seen, hcomparing⟩
  | succ fuel ih =>
    cases pending with
    | nil => exact Or.inl ⟨rfl, seen, hcomparing⟩
    | cons pair pending =>
      have hmem : pair ∈ seen := hcomparing.pending_subset List.mem_cons_self
      have hpair := hcomparing.hasPair hhas hmem
      obtain ⟨fresh, hfresh, hnodup, hfound⟩ := @freshPairs_eq left right pair symbols hpair seen
      by_cases hagree : Agree left right pair
      · have hcontinue := ih (hcomparing.step hagree hnodup hfound) (by
          rw [List.length_append, List.length_append]
          rw [List.length_cons] at hfuel
          omega)
        have hstep : agreeFrom left right symbols (fuel + 1) (pair :: pending) seen =
            agreeFrom left right symbols fuel (pending ++ fresh) (fresh ++ seen) := by
          rw [Agree] at hagree
          simp [agreeFrom, acceptsAt_eq hpair.1, acceptsAt_eq hpair.2, hagree, hfresh, bind,
            Except.bind]
        rwa [hstep]
      · obtain ⟨word, hword, hreached⟩ := hcomparing.sound pair hmem
        refine Or.inr ⟨?_, word, hword, hreached ▸ hagree⟩
        rw [Agree] at hagree
        simp [agreeFrom, acceptsAt_eq hpair.1, acceptsAt_eq hpair.2, hagree, bind, Except.bind,
          pure, Except.pure]

end Pairs

section Languages

variable {left right : Dfa}

/-- The comparison of two automata succeeds, and says whether they accept the same texts. -/
theorem isEquivalent_iff (hleft : left.WellFormed) (hright : right.WellFormed) :
    ∃ answer, left.isEquivalent right = .ok answer ∧
      (answer = true ↔ ∀ text, left.accepts text = right.accepts text) := by
  have hsymbols : ∀ symbol, symbol ∈ Ascending.ofList (left.alphabet ++ right.alphabet) ↔
      symbol ∈ left.alphabet ∨ symbol ∈ right.alphabet := by
    intro symbol
    rw [Ascending.mem_ofList, List.mem_append]
  have haccepts : ∀ text, left.accepts text = right.accepts text ↔
      Agree left right (pairReached left right (left.start, right.start) (symbolsOf text)) := by
    intro text
    rw [hleft.accepts_eq, hright.accepts_eq, Except.ok.injEq]
    rfl
  have hhas : ∀ word,
      HasPair left right (pairReached left right (left.start, right.start) word) :=
    fun word => ⟨hleft.has_reached hleft.start word, hright.has_reached hright.start word⟩
  simp only [haccepts]
  rcases agreeFrom_spec hhas Comparing.init
    (Nat.add_le_add_right (Nat.le_succ _) 1) with
    ⟨htrue, seen, hdone⟩ | ⟨hfalse, word, hword, hapart⟩
  · refine ⟨true, htrue, iff_of_true rfl fun text => ?_⟩
    exact hdone.agree_of_done hleft hright hsymbols hdone.start_mem _
  · refine ⟨false, hfalse, iff_of_false Bool.false_ne_true fun hagree => hapart ?_⟩
    obtain ⟨text, rfl⟩ := exists_symbolsOf_eq fun symbol hsymbol =>
      ((hsymbols symbol).1 (hword symbol hsymbol)).elim (hleft.character symbol)
        (hright.character symbol)
    exact hagree text

/-- Between well-formed automata the comparison is an equivalence relation. -/
theorem equivalence_isEquivalent :
    Equivalence fun left right : {dfa : Dfa // dfa.WellFormed} =>
      left.1.isEquivalent right.1 = .ok true := by
  have hiff : ∀ left right : {dfa : Dfa // dfa.WellFormed},
      left.1.isEquivalent right.1 = .ok true ↔
        ∀ text, left.1.accepts text = right.1.accepts text := by
    intro left right
    obtain ⟨answer, hanswer, htrue⟩ := isEquivalent_iff left.2 right.2
    rw [hanswer, Except.ok.injEq, htrue]
  constructor
  · exact fun dfa => (hiff dfa dfa).2 fun _ => rfl
  · exact fun hsame => (hiff _ _).2 fun text => ((hiff _ _).1 hsame text).symm
  · intro first second third hfirst hsecond
    refine (hiff _ _).2 fun text => ?_
    exact ((hiff _ _).1 hfirst text).trans ((hiff _ _).1 hsecond text)

/-- Every text is accepted or rejected, the comparison of two automata says whether they accept the
same texts, and it is an equivalence relation. -/
theorem isEquivalent_exact :
    (∀ left right : Dfa, left.WellFormed → right.WellFormed →
      (∀ text, ∃ first second, left.accepts text = .ok first ∧ right.accepts text = .ok second) ∧
      (left.isEquivalent right = .ok true ↔ ∀ text, left.accepts text = right.accepts text) ∧
      (left.isEquivalent right = .ok false ↔ ∃ text, left.accepts text ≠ right.accepts text)) ∧
    Equivalence fun left right : {dfa : Dfa // dfa.WellFormed} =>
      left.1.isEquivalent right.1 = .ok true := by
  refine ⟨fun left right hleft hright => ⟨fun text => ?_, ?_⟩, equivalence_isEquivalent⟩
  · exact ⟨_, _, hleft.accepts_eq text, hright.accepts_eq text⟩
  · obtain ⟨answer, hanswer, htrue⟩ := isEquivalent_iff hleft hright
    rw [hanswer, Except.ok.injEq, Except.ok.injEq, ← not_forall, ← htrue, Bool.not_eq_true]
    exact ⟨Iff.rfl, Iff.rfl⟩

/-- It is enough to look at the entries of the transition tables. -/
theorem wellFormed_of_entries {dfa : Dfa} (hstart : dfa.Has dfa.start)
    (hentries : ∀ state ∈ dfa.states, ∀ entry ∈ state.transitions,
      entry.2 < dfa.states.size ∧ entry.1 ∈ dfa.alphabet)
    (hcharacter : ∀ symbol ∈ dfa.alphabet, IsSingle symbol) :
    dfa.WellFormed where
  start := hstart
  target state hstate _ _ hvalue :=
    (hentries state hstate _ (Table.mem_of_value?_eq_some hvalue)).1
  symbol state hstate _ _ hvalue :=
    (hentries state hstate _ (Table.mem_of_value?_eq_some hvalue)).2
  character := hcharacter

/-- Odd numbers of `a`, with two states for the even ones, a dead state, and one out of reach. -/
def redundantDfa : Dfa where
  states := #[{ id := 0, transitions := [("a", 1), ("b", 3)] },
    { id := 1, accepting := true, transitions := [("a", 2)] },
    { id := 2, transitions := [("b", 3), ("a", 1)] }, { id := 3, transitions := [("b", 3)] },
    { id := 4, accepting := true, transitions := [("b", 0)] }]
  alphabet := ["a", "b"]
  start := some 0

/-- Odd numbers of `a`, starting in the later of the two states. -/
def minimalDfa : Dfa where
  states := #[{ id := 0, accepting := true, transitions := [("a", 1)] },
    { id := 1, transitions := [("a", 0)] }]
  alphabet := ["c", "a"]
  start := some 1

theorem wellFormed_redundantDfa : redundantDfa.WellFormed := by
  apply wellFormed_of_entries
  · rintro _ ⟨⟩
    decide
  · decide
  · exact List.forall_mem_cons.2 ⟨⟨'a', rfl⟩, List.forall_mem_singleton.2 ⟨'b', rfl⟩⟩

theorem wellFormed_minimalDfa : minimalDfa.WellFormed := by
  apply wellFormed_of_entries
  · rintro _ ⟨⟩
    decide
  · decide
  · exact List.forall_mem_cons.2 ⟨⟨'c', rfl⟩, List.forall_mem_singleton.2 ⟨'a', rfl⟩⟩

theorem isEquivalent_exact_redundantDfa :
    redundantDfa.WellFormed ∧ minimalDfa.WellFormed ∧
      (∀ text, ∃ first second,
        redundantDfa.accepts text = .ok first ∧ minimalDfa.accepts text = .ok second) ∧
      (redundantDfa.isEquivalent minimalDfa = .ok true ↔
        ∀ text, redundantDfa.accepts text = minimalDfa.accepts text) ∧
      (redundantDfa.isEquivalent minimalDfa = .ok false ↔
        ∃ text, redundantDfa.accepts text ≠ minimalDfa.accepts text) :=
  ⟨wellFormed_redundantDfa, wellFormed_minimalDfa,
    isEquivalent_exact.1 _ _ wellFormed_redundantDfa wellFormed_minimalDfa⟩

end Languages

end Dfa
end RegexAutomata
