import RegexAutomata.Proofs.Nfa.Assembled
import RegexAutomata.Proofs.Nfa.Stations

/-!
# Every state of a fragment lies on a way through it

Trails lead from the first state of a fragment to each of its states, and from each of its states
to the one at which it is left.  So nothing that the construction adds to the arena is out of reach,
and every value of the tree is read on an edge that can be reached.
-/

namespace RegexAutomata

namespace Fragment

/-- To every state of the fragment some trail leads from the first one. -/
def Fills (base : Nat) (regex : Regex) : Prop :=
  ∀ id, Within base regex id → ∃ word, Trail (Edge base regex) base word id

section Entrance

/-- What leads to the first state of a part leads on to everywhere in the part. -/
theorem Part.exists_trail_to {edge : Int → String → Int → Prop} {base : Nat} {regex : Regex}
    {exits : Int → Prop} (hpart : Part edge base regex exits) (hfills : Fills base regex)
    {origin : Int} {front : List String} (hfront : Trail edge origin front base) (id : Int)
    (hid : Within base regex id) : ∃ word, Trail edge origin word id := by
  obtain ⟨word, htrail⟩ := hfills id hid
  exact ⟨front ++ word, hfront.append (htrail.mono hpart.own)⟩

/-- What leads to the first state of a part leads through the part and on to what comes after. -/
theorem Part.exists_trail_past {edge : Int → String → Int → Prop} {base : Nat} {regex : Regex}
    {exits : Int → Prop} (hpart : Part edge base regex exits) (hfills : Fills base regex)
    {origin next : Int} {front : List String} (hfront : Trail edge origin front base)
    (hleave : edge (base + exit regex : Nat) epsilon next) :
    ∃ word, Trail edge origin word next := by
  have hexit : Within base regex (base + exit regex : Nat) := by
    have hlast := exit_lt_size hpart.known
    rw [Within]
    omega
  obtain ⟨word, htrail⟩ := hpart.exists_trail_to hfills hfront _ hexit
  exact ⟨word ++ [], htrail.append (.silent hleave (.nil _))⟩

variable {base : Nat} {left right inner : Regex}

theorem fills_char (value : String) : Fills base (.char value) := by
  intro id hid
  rw [Within, size] at hid
  by_cases hstart : id = base
  · exact ⟨[], hstart ▸ .nil _⟩
  · have hend : Edge base (.char value) base value id := edge_char.2 ⟨rfl, rfl, by omega⟩
    by_cases hvalue : value = epsilon
    · exact ⟨[], .silent (hvalue ▸ hend) (.nil _)⟩
    · exact ⟨[value], .read hvalue hend (.nil _)⟩

/-- The right part is entered where the left one is left. -/
theorem fills_concat (hleft : left.isKnown) (hright : right.isKnown)
    (hfillsLeft : Fills base left) (hfillsRight : Fills (base + size left) right) :
    Fills base (.concat left right) := by
  intro id hid
  have hfirst := @part_concat_left base left right hleft hright
  have hsecond := @part_concat_right base left right hleft hright
  have hlink : Edge base (.concat left right) (base + exit left : Nat) epsilon
      (base + size left : Nat) := (edge_concat hleft).2 (Or.inl ⟨rfl, rfl, rfl⟩)
  by_cases hwithin : Within base left id
  · exact hfirst.exists_trail_to hfillsLeft (.nil _) id hwithin
  · obtain ⟨front, hfront⟩ := hfirst.exists_trail_past hfillsLeft (.nil _) hlink
    apply hsecond.exists_trail_to hfillsRight hfront
    simp only [Within, size] at hid hwithin ⊢
    omega

/-- Either part is entered from the first state of the whole. -/
theorem fills_alternation (hleft : left.isKnown) (hright : right.isKnown)
    (hfillsLeft : Fills (base + 2) left) (hfillsRight : Fills (base + 2 + size left) right) :
    Fills base (.alternation left right) := by
  intro id hid
  have hfirst := @part_alternation_left base left right hleft hright
  have hsecond := @part_alternation_right base left right hleft hright
  have hentry : ∀ target : Int,
      target = (base + 2 : Nat) ∨ target = (base + 2 + size left : Nat) →
      Trail (Edge base (.alternation left right)) base [] target := fun target htarget =>
    .silent ((edge_alternation_start hleft hright).2 ⟨rfl, htarget⟩) (.nil _)
  have hleave : Edge base (.alternation left right) (base + 2 + exit left : Nat) epsilon
      (base + 1 : Nat) :=
    (edge_alternation hleft hright).2 (Or.inr (Or.inl ⟨rfl, rfl, rfl⟩))
  by_cases hstart : id = base
  · exact ⟨[], hstart ▸ .nil _⟩
  · by_cases hend : id = (base + 1 : Nat)
    · rw [hend]
      exact hfirst.exists_trail_past hfillsLeft (hentry _ (Or.inl rfl)) hleave
    · by_cases hwithin : Within (base + 2) left id
      · exact hfirst.exists_trail_to hfillsLeft (hentry _ (Or.inl rfl)) id hwithin
      · apply hsecond.exists_trail_to hfillsRight (hentry _ (Or.inr rfl))
        simp only [Within, size] at hid hwithin ⊢
        omega

theorem fills_star (hinner : inner.isKnown) (hfills : Fills (base + 2) inner) :
    Fills base (.star inner) := by
  intro id hid
  have hpart := @part_star base inner hinner
  have hentry : ∀ target : Int, target = (base + 2 : Nat) ∨ target = (base + 1 : Nat) →
      Trail (Edge base (.star inner)) base [] target := fun target htarget =>
    .silent ((edge_star_start hinner).2 ⟨rfl, htarget⟩) (.nil _)
  by_cases hstart : id = base
  · exact ⟨[], hstart ▸ .nil _⟩
  · by_cases hend : id = (base + 1 : Nat)
    · exact ⟨[], hend ▸ hentry _ (Or.inr rfl)⟩
    · apply hpart.exists_trail_to hfills (hentry _ (Or.inl rfl))
      simp only [Within, size] at hid ⊢
      omega

theorem fills {regex : Regex} (hknown : regex.isKnown) (base : Nat) : Fills base regex := by
  induction regex generalizing base with
  | char value => exact fills_char value
  | concat left right ihLeft ihRight =>
    simp only [Regex.isKnown, Bool.and_eq_true] at hknown
    exact fills_concat hknown.1 hknown.2 (ihLeft hknown.1 _) (ihRight hknown.2 _)
  | alternation left right ihLeft ihRight =>
    simp only [Regex.isKnown, Bool.and_eq_true] at hknown
    exact fills_alternation hknown.1 hknown.2 (ihLeft hknown.1 _) (ihRight hknown.2 _)
  | star inner ih => exact fills_star hknown (ih hknown _)
  | unknown kind mark => exact absurd hknown Bool.false_ne_true

end Entrance

/-- Every value of the tree is on an edge of its fragment. -/
theorem exists_edge_of_mem_values {regex : Regex} (hknown : regex.isKnown) {value : String}
    (hvalue : value ∈ regex.values) (base : Nat) :
    ∃ source target, Edge base regex source value target := by
  induction regex generalizing base with
  | char own =>
    rw [List.mem_singleton.1 hvalue]
    exact ⟨base, (base + 1 : Nat), edge_char.2 ⟨rfl, rfl, rfl⟩⟩
  | concat left right ihLeft ihRight =>
    simp only [Regex.isKnown, Bool.and_eq_true] at hknown
    rcases List.mem_append.1 hvalue with hvalue | hvalue
    · obtain ⟨source, target, hedge⟩ := ihLeft hknown.1 hvalue base
      exact ⟨source, target, (part_concat_left hknown.1 hknown.2).own _ _ _ hedge⟩
    · obtain ⟨source, target, hedge⟩ := ihRight hknown.2 hvalue (base + size left)
      exact ⟨source, target, (part_concat_right hknown.1 hknown.2).own _ _ _ hedge⟩
  | alternation left right ihLeft ihRight =>
    simp only [Regex.isKnown, Bool.and_eq_true] at hknown
    rcases List.mem_append.1 hvalue with hvalue | hvalue
    · obtain ⟨source, target, hedge⟩ := ihLeft hknown.1 hvalue (base + 2)
      exact ⟨source, target, (part_alternation_left hknown.1 hknown.2).own _ _ _ hedge⟩
    · obtain ⟨source, target, hedge⟩ := ihRight hknown.2 hvalue (base + 2 + size left)
      exact ⟨source, target, (part_alternation_right hknown.1 hknown.2).own _ _ _ hedge⟩
  | star inner ih =>
    have hinner : inner.isKnown := hknown
    obtain ⟨source, target, hedge⟩ := ih hinner hvalue (base + 2)
    exact ⟨source, target, (part_star hinner).own _ _ _ hedge⟩
  | unknown kind mark => exact absurd hknown Bool.false_ne_true

end Fragment

namespace Nfa

variable {regex : Regex} {nfa : Nfa}

section Assembled

variable (hknown : regex.isKnown) (hnfa : Nfa.ofRegex regex = .ok nfa)

include hknown hnfa

theorem size_ofRegex : nfa.states.size = Fragment.size regex := by
  rw [states_ofRegex hknown hnfa, Array.size_modify, Fragment.size_states]

theorem finish_ofRegex : nfa.finish = (Fragment.exit regex : Nat) := by
  rw [ofRegex_eq hknown] at hnfa
  cases hnfa
  rfl

theorem within_natCast {place : Nat} (hplace : place < nfa.states.size) :
    Fragment.Within 0 regex (place : Int) := by
  rw [size_ofRegex hknown hnfa] at hplace
  rw [Fragment.Within]
  omega

theorem exists_path_to {place : Nat} (hplace : place < nfa.states.size) :
    ∃ word, nfa.Path nfa.start word place := by
  obtain ⟨word, htrail⟩ := Fragment.fills hknown 0 _ (within_natCast hknown hnfa hplace)
  exact ⟨word, (path_ofRegex hknown hnfa).2 htrail⟩

theorem exists_path_from {place : Nat} (hplace : place < nfa.states.size) :
    ∃ word, nfa.Path place word nfa.finish := by
  obtain ⟨word, htrail⟩ := Fragment.drains hknown 0 _ (within_natCast hknown hnfa hplace)
  rw [Nat.zero_add] at htrail
  rw [finish_ofRegex hknown hnfa]
  exact ⟨word, path_of_trail hknown hnfa htrail⟩

/-- The symbols in use are the values of the tree, but for the one that reads nothing. -/
theorem mem_alphabet_ofRegex :
    ∃ symbols, nfa.alphabet = .ok symbols ∧
      ∀ symbol, symbol ∈ symbols ↔ symbol ≠ epsilon ∧ symbol ∈ regex.values := by
  obtain ⟨symbols, hsymbols, hmem⟩ := alphabet_eq (intact_ofRegex hknown hnfa)
  obtain ⟨others, hothers, hvalues⟩ := alphabet_ofRegex hknown hnfa
  obtain rfl : symbols = others := Except.ok.inj (hsymbols.symm.trans hothers)
  refine ⟨symbols, hsymbols, fun symbol => ⟨fun hsymbol => ?_, ?_⟩⟩
  · exact ⟨((hmem symbol).1 hsymbol).1, hvalues symbol hsymbol⟩
  · rintro ⟨hread, hvalue⟩
    obtain ⟨source, target, hedge⟩ := Fragment.exists_edge_of_mem_values hknown hvalue 0
    have hwithin := (Fragment.within_of_edge hknown hedge).1
    have hown := (edge_ofRegex hknown hnfa hwithin.1).2 hedge
    obtain ⟨word, htrail⟩ := Fragment.fills hknown 0 source hwithin
    have hreachable : nfa.Reachable source :=
      Reachable.path .refl ((path_ofRegex hknown hnfa).2 htrail)
    obtain ⟨state, hstate, hlisted⟩ := hown.symbol_mem
    exact (hmem symbol).2 ⟨hread, source, state, hreachable, hstate, hlisted⟩

end Assembled

end Nfa
end RegexAutomata
