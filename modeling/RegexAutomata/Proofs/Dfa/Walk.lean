import RegexAutomata.Dfa.Basic
import RegexAutomata.Proofs.Exploration.Sets
import RegexAutomata.Proofs.Regex.Language

/-!
# Walks of an automaton that a search has found

A walk reads a word symbol by symbol and ends in a state, or breaks off where a transition is
missing.  In the automaton of a complete search, a walk from the state of a key ends in the state of
the key that the steps of the search lead to, and it breaks off where they lead to none.
-/

namespace RegexAutomata

namespace Dfa

def walkFrom (dfa : Dfa) (index : Nat) : List String → Except Failure (Option Nat)
  | [] => .ok (some index)
  | symbol :: rest => do
    match ← dfa.next index symbol with
    | none => return none
    | some target => dfa.walkFrom target rest

/-- The state in which a word ends, if every transition on the way is there. -/
def walk (dfa : Dfa) (word : List String) : Except Failure (Option Nat) :=
  match dfa.start with
  | none => .ok none
  | some start => dfa.walkFrom start word

def Accessible (dfa : Dfa) (index : Nat) : Prop :=
  ∃ word, dfa.walk word = .ok (some index)

/-- The state in which a word ends is there and accepts. -/
def acceptsWord (dfa : Dfa) (word : List String) : Except Failure Bool := do
  match ← dfa.walk word with
  | none => return false
  | some index => return (← dfa.state? index).accepting

theorem acceptsWord_eq {dfa : Dfa} {word : List String} {reached : Option Nat}
    (hwalk : dfa.walk word = .ok reached) :
    dfa.acceptsWord word =
      reached.elim (.ok false) fun index => State.accepting <$> dfa.state? index := by
  rw [acceptsWord, hwalk]
  cases reached <;> rfl

/-- A walk on two words in a row goes on where the walk on the first one ends. -/
theorem walkFrom_append {dfa : Dfa} {index middle : Nat} {left : List String}
    (hwalk : dfa.walkFrom index left = .ok (some middle)) (right : List String) :
    dfa.walkFrom index (left ++ right) = dfa.walkFrom middle right := by
  induction left generalizing index with
  | nil =>
    cases hwalk
    rfl
  | cons symbol rest ih =>
    rw [walkFrom] at hwalk
    rw [List.cons_append, walkFrom]
    cases hnext : dfa.next index symbol with
    | error failure => rw [hnext] at hwalk; cases hwalk
    | ok target =>
      rw [hnext] at hwalk
      cases target with
      | none => cases hwalk
      | some target => exact ih hwalk

theorem walk_append {dfa : Dfa} {index : Nat} {left : List String}
    (hwalk : dfa.walk left = .ok (some index)) (right : List String) :
    dfa.walk (left ++ right) = dfa.walkFrom index right := by
  unfold walk at hwalk ⊢
  cases hstart : dfa.start with
  | none => rw [hstart] at hwalk; cases hwalk
  | some start =>
    rw [hstart] at hwalk
    exact walkFrom_append hwalk right

theorem acceptsFrom_eq_walkFrom (dfa : Dfa) (index : Nat) (characters : List Char) :
    dfa.acceptsFrom index characters = do
      match ← dfa.walkFrom index (characters.map String.singleton) with
      | none => return false
      | some final => return (← dfa.state? final).accepting := by
  induction characters generalizing index with
  | nil => rfl
  | cons character rest ih =>
    rw [acceptsFrom, List.map_cons, walkFrom]
    cases hnext : dfa.next index (String.singleton character) with
    | error failure => rfl
    | ok target =>
      cases target with
      | none => rfl
      | some target => exact ih target

/-- A text is accepted as the word of its characters. -/
theorem accepts_eq_acceptsWord (dfa : Dfa) (text : String) :
    dfa.accepts text = dfa.acceptsWord (symbolsOf text) := by
  unfold accepts acceptsWord walk symbolsOf
  cases dfa.start with
  | none => rfl
  | some start => exact dfa.acceptsFrom_eq_walkFrom start text.toList

end Dfa

namespace Dfa

section Search

variable {κ : Type} [Ord κ] {exploration : Exploration κ} {alphabet : List String}
  {state : Nat → κ → Table String Nat → State}

/-- The state of a number is made from its key and its row. -/
theorem getElem?_states_ofExploration {number : Nat} :
    (ofExploration exploration alphabet state).states[number]? =
      (exploration.found.key? number).map fun key =>
        state number key ((exploration.rows[number]?.getD []).map fun edge =>
          (edge.symbol, edge.target)) := by
  unfold ofExploration ofStates Exploration.entries Numbering.key?
  simp [Function.comp_def]

theorem size_states_ofExploration :
    (ofExploration exploration alphabet state).states.size = exploration.found.size := by
  simp [ofExploration, ofStates, Exploration.entries, Numbering.size]

theorem start_ofExploration {key : κ} (hkey : exploration.found.key? 0 = some key) :
    (ofExploration exploration alphabet state).start = some 0 := by
  have hsize : exploration.found.keys ≠ #[] := by
    rintro hnone
    simp [Numbering.key?, hnone] at hkey
  simp [ofExploration, ofStates, Exploration.entries, hsize]

variable {step : κ → String → Except Failure (Option κ)} {symbols : List String} {first : κ}

open Exploration

/-- A transition leads to the state of the next key. -/
theorem next_ofExploration (hcomplete : Complete step symbols first exploration)
    (hstate : ∀ number key table, (state number key table).transitions = table)
    {number : Nat} {key : κ} (hkey : exploration.found.key? number = some key) (symbol : String) :
    ∃ target, (ofExploration exploration alphabet state).next number symbol = .ok target ∧
      ∀ index, target = some index ↔ symbol ∈ symbols ∧
        ∃ next, step key symbol = .ok (some next) ∧ exploration.found.key? index = some next := by
  obtain ⟨row, hrow, hrowOf⟩ := hcomplete.exists_row hkey
  refine ⟨_, ?_, fun index => hrowOf.value?_eq_some_iff⟩
  have hfound := @getElem?_states_ofExploration κ _ exploration alphabet state number
  rw [hkey, hrow] at hfound
  simp [next, state?, hfound, hstate, bind, Except.bind, pure, Except.pure]

/-- A walk ends where the steps of the search lead to. -/
theorem walkFrom_ofExploration (hcomplete : Complete step symbols first exploration)
    (hstate : ∀ number key table, (state number key table).transitions = table)
    {number : Nat} {key : κ} (hkey : exploration.found.key? number = some key)
    (word : List String) :
    (∃ index final, (ofExploration exploration alphabet state).walkFrom number word =
        .ok (some index) ∧ exploration.found.key? index = some final ∧
        Leads step symbols key word final) ∨
      ((ofExploration exploration alphabet state).walkFrom number word = .ok none ∧
        ∀ final, ¬ Leads step symbols key word final) := by
  induction word generalizing number key with
  | nil => exact Or.inl ⟨number, key, rfl, hkey, .nil key⟩
  | cons symbol rest ih =>
    obtain ⟨target, hnext, htarget⟩ :=
      @next_ofExploration κ _ exploration alphabet state step symbols first hcomplete hstate number
        key hkey symbol
    cases target with
    | none =>
      refine Or.inr ⟨?_, fun final hleads => ?_⟩
      · simp [walkFrom, hnext, bind, Except.bind, pure, Except.pure]
      · obtain ⟨hsymbol, next, hstep, -⟩ := leads_cons_iff.1 hleads
        obtain ⟨row, -, hrow⟩ := hcomplete.exists_row hkey
        obtain ⟨index, hindex⟩ := hrow.exists_key hsymbol hstep
        have hsome := (htarget index).2 ⟨hsymbol, next, hstep, hindex⟩
        cases hsome
    | some index =>
      obtain ⟨hsymbol, next, hstep, hfound⟩ := (htarget index).1 rfl
      have hwalk : (ofExploration exploration alphabet state).walkFrom number (symbol :: rest) =
          (ofExploration exploration alphabet state).walkFrom index rest := by
        simp [walkFrom, hnext, bind, Except.bind]
      rw [hwalk]
      rcases ih hfound with ⟨last, final, hlast, hfinal, hleads⟩ | ⟨hnone, hnever⟩
      · exact Or.inl ⟨last, final, hlast, hfinal, .cons hsymbol hstep hleads⟩
      · refine Or.inr ⟨hnone, fun final hleads => ?_⟩
        obtain ⟨-, other, hother, hrest⟩ := leads_cons_iff.1 hleads
        rw [hstep] at hother
        obtain rfl : next = other := by simpa using hother
        exact hnever final hrest

theorem walk_ofExploration (hcomplete : Complete step symbols first exploration)
    (hstate : ∀ number key table, (state number key table).transitions = table)
    (word : List String) :
    (∃ index final, (ofExploration exploration alphabet state).walk word = .ok (some index) ∧
        exploration.found.key? index = some final ∧ Leads step symbols first word final) ∨
      ((ofExploration exploration alphabet state).walk word = .ok none ∧
        ∀ final, ¬ Leads step symbols first word final) := by
  rw [walk, start_ofExploration hcomplete.first_key]
  exact walkFrom_ofExploration hcomplete hstate hcomplete.first_key word

/-- A word is accepted if the steps of the search lead to an accepting key. -/
theorem acceptsWord_ofExploration (hcomplete : Complete step symbols first exploration)
    (hstate : ∀ number key table, (state number key table).transitions = table)
    {accepting : κ → Bool}
    (haccepting : ∀ number key table, (state number key table).accepting = accepting key)
    (word : List String) :
    ∃ answer, (ofExploration exploration alphabet state).acceptsWord word = .ok answer ∧
      (answer = true ↔ ∃ final, Leads step symbols first word final ∧ accepting final = true) := by
  rcases @walk_ofExploration κ _ exploration alphabet state step symbols first hcomplete hstate word
    with ⟨index, final, hwalk, hfinal, hleads⟩ | ⟨hwalk, hnever⟩
  · refine ⟨accepting final, ?_, fun hanswer => ⟨final, hleads, hanswer⟩, ?_⟩
    · have hfound := @getElem?_states_ofExploration κ _ exploration alphabet state index
      rw [hfinal] at hfound
      simp [acceptsWord, hwalk, state?, hfound, haccepting, bind, Except.bind, pure, Except.pure]
    · rintro ⟨other, hother, hanswer⟩
      rwa [hleads.unique hother]
  · refine ⟨false, ?_, fun hanswer => absurd hanswer Bool.false_ne_true, ?_⟩
    · simp [acceptsWord, hwalk, bind, Except.bind, pure, Except.pure]
    · rintro ⟨final, hleads, -⟩
      exact absurd hleads (hnever final)

end Search

section Sets

open Exploration

variable {exploration : Exploration (List Int)} {symbols : List String}
  {state : Nat → List Int → Table String Nat → State}
  {step : List Int → String → Except Failure (Option (List Int))}
  {relation : Int → String → Int → Prop} {whole : Finset Int} {first : List Int}

/-- A walk breaks off if the word relates nothing to a member of the first set, and else it ends in
the state of all numbers that are so related. -/
theorem walk_of_collects (hcollects : Collects step symbols relation whole)
    (hfirst : first.Pairwise (· < ·)) (hwithin : ∀ id ∈ first, id ∈ whole) (hnonempty : first ≠ [])
    (hcomplete : Complete step symbols first exploration)
    (hstate : ∀ number key table, (state number key table).transitions = table)
    (alphabet word : List String) :
    ∃ reached, (ofExploration exploration alphabet state).walk word = .ok reached ∧
      (reached.isSome ↔ ∃ id, ∃ before ∈ first, Threads relation before word id) ∧
      ∀ index, reached = some index → ∃ key table,
        (ofExploration exploration alphabet state).state? index = .ok (state index key table) ∧
        key.Pairwise (· < ·) ∧
        ∀ id, id ∈ key ↔ ∃ before ∈ first, Threads relation before word id := by
  rcases @walk_ofExploration _ _ exploration alphabet state step symbols first hcomplete hstate word
    with ⟨index, final, hwalk, hfinal, hleads⟩ | ⟨hwalk, hnever⟩
  · have hmem := hcollects.mem_of_leads hwithin hleads
    have hreachable := hcomplete.sound index final hfinal
    refine ⟨some index, hwalk, ?_, fun number hnumber => ?_⟩
    · refine ⟨fun _ => ?_, fun _ => rfl⟩
      obtain ⟨id, hid⟩ := List.exists_mem_of_ne_nil final
        (hcollects.ne_nil_of_reachable hfirst hwithin hnonempty hreachable)
      exact ⟨id, (hmem id).1 hid⟩
    · cases hnumber
      have hfound := @getElem?_states_ofExploration _ _ exploration alphabet state index
      rw [hfinal, Option.map_some] at hfound
      exact ⟨final, _, state?_eq_ok_iff.2 hfound,
        (hcollects.of_reachable hfirst hwithin hreachable).1, hmem⟩
  · refine ⟨none, hwalk, ⟨fun hsome => ?_, ?_⟩, fun number hnumber => ?_⟩
    · cases hsome
    · rintro ⟨id, before, hbefore, hthreads⟩
      obtain ⟨final, hleads⟩ := hcollects.exists_leads hwithin hbefore hthreads
      exact absurd hleads (hnever final)
    · cases hnumber

end Sets

end Dfa
end RegexAutomata
