import Mathlib.Data.Finset.Image
import RegexAutomata.Proofs.Collection.Traversal
import RegexAutomata.Proofs.Dfa.Walk

/-!
# Homomorphic images

A homomorphism maps the states of one automaton to those of another so that starts, acceptance and
transitions agree, missing transitions included.  Two searches yield such a map if the keys of the
one determine those of the other word by word.
-/

namespace RegexAutomata.Dfa

/-- A map from the states of one automaton onto those of another. -/
structure Homomorphism (source target : Dfa) (image : Nat → Nat) : Prop where
  start : ∃ index < source.states.size, source.start = some index ∧
    target.start = some (image index)
  accepting : ∀ index state, source.state? index = .ok state →
    ∃ other, target.state? (image index) = .ok other ∧ other.accepting = state.accepting
  next : ∀ index symbol reached, source.next index symbol = .ok reached →
    target.next (image index) symbol = .ok (reached.map image)
  onto : ∀ number < target.states.size, ∃ index < source.states.size, image index = number

/-- An image has no more states. -/
theorem Homomorphism.size_le {source target : Dfa} {image : Nat → Nat}
    (himage : Homomorphism source target image) : target.states.size ≤ source.states.size := by
  have hsubset : Finset.range target.states.size ⊆
      (Finset.range source.states.size).image image := by
    intro number hnumber
    obtain ⟨index, hindex, hequal⟩ := himage.onto number (Finset.mem_range.1 hnumber)
    exact Finset.mem_image.2 ⟨index, Finset.mem_range.2 hindex, hequal⟩
  calc target.states.size
      = (Finset.range target.states.size).card := (Finset.card_range _).symm
    _ ≤ ((Finset.range source.states.size).image image).card := Finset.card_le_card hsubset
    _ ≤ (Finset.range source.states.size).card := Finset.card_image_le
    _ = source.states.size := Finset.card_range _

section Search

open Exploration

variable {κ ι : Type} [Ord κ] [Ord ι] {exploration : Exploration κ} {others : Exploration ι}
  {alphabet otherAlphabet symbols otherSymbols : List String}
  {state : Nat → κ → Table String Nat → State} {otherState : Nat → ι → Table String Nat → State}
  {step : κ → String → Except Failure (Option κ)}
  {otherStep : ι → String → Except Failure (Option ι)} {first : κ} {otherFirst : ι}

/-- In a complete search a transition leads to the key that a word and one more symbol lead to. -/
theorem next_eq_some_iff (alphabet : List String)
    (hcomplete : Complete step symbols first exploration)
    (htransitions : ∀ number key table, (state number key table).transitions = table)
    {number : Nat} {key : κ} (hkey : exploration.found.key? number = some key) {word : List String}
    (hleads : Leads step symbols first word key) (symbol : String) :
    ∃ reached, (ofExploration exploration alphabet state).next number symbol = .ok reached ∧
      ∀ index, reached = some index ↔ ∃ final, exploration.found.key? index = some final ∧
        Leads step symbols first (word ++ [symbol]) final := by
  obtain ⟨reached, hnext, hreached⟩ :=
    @next_ofExploration κ _ exploration alphabet state step symbols first hcomplete htransitions
      number key hkey symbol
  refine ⟨reached, hnext, fun index => (hreached index).trans ?_⟩
  constructor
  · rintro ⟨hsymbol, final, hstep, hfinal⟩
    exact ⟨final, hfinal, hleads.snoc hsymbol hstep⟩
  · rintro ⟨final, hfinal, hlast⟩
    obtain ⟨middle, hmiddle, hsymbol, hstep⟩ := leads_snoc_iff.1 hlast
    rw [← hleads.unique hmiddle] at hstep
    exact ⟨hsymbol, final, hstep, hfinal⟩

theorem exists_state_of_key (alphabet : List String) {accepting : κ → Bool}
    (haccepting : ∀ number key table, (state number key table).accepting = accepting key)
    {number : Nat} {key : κ} (hkey : exploration.found.key? number = some key) :
    ∃ found, (ofExploration exploration alphabet state).state? number = .ok found ∧
      found.accepting = accepting key := by
  have hfound := @getElem?_states_ofExploration κ _ exploration alphabet state number
  rw [hkey, Option.map_some] at hfound
  exact ⟨_, state?_eq_ok_iff.2 hfound, haccepting _ _ _⟩

def imageNumber (exploration : Exploration κ) (others : Exploration ι) (image : κ → ι)
    (number : Nat) : Nat :=
  ((exploration.found.key? number).bind fun key => others.found.number? (image key)).getD 0

section Image

variable {image : κ → ι} (hcomplete : Complete step symbols first exploration)
  (hothers : Complete otherStep otherSymbols otherFirst others)
  (hleads : ∀ word key, Leads otherStep otherSymbols otherFirst word key ↔
    ∃ origin, Leads step symbols first word origin ∧ image origin = key)

include hothers hleads

theorem key?_imageNumber {number : Nat} {key : κ} {word : List String}
    (hkey : exploration.found.key? number = some key) (hword : Leads step symbols first word key) :
    others.found.key? (imageNumber exploration others image number) = some (image key) := by
  obtain ⟨index, hindex⟩ :=
    hothers.exists_number hothers.first_key ((hleads word _).2 ⟨key, hword, rfl⟩)
  rw [imageNumber, hkey, Option.bind_some, Numbering.number?_eq_some_iff.2 hindex]
  exact hindex

include hcomplete

theorem imageNumber_zero : imageNumber exploration others image 0 = 0 := by
  have hfirst := key?_imageNumber hothers hleads hcomplete.first_key (.nil first)
  obtain ⟨origin, horigin, hsame⟩ := (hleads [] otherFirst).1 (.nil otherFirst)
  rw [← leads_nil_iff.1 horigin, hsame] at hfirst
  exact Numbering.key?_injective hfirst hothers.first_key

/-- If each word leads to the images of the keys that it leads to in the other search, then the
automata of the searches are related by a homomorphism. -/
theorem homomorphism_ofExploration
    (htransitions : ∀ number key table, (state number key table).transitions = table)
    (hotherTransitions : ∀ number key table, (otherState number key table).transitions = table)
    {accepting : κ → Bool} {otherAccepting : ι → Bool}
    (haccepting : ∀ number key table, (state number key table).accepting = accepting key)
    (hotherAccepting :
      ∀ number key table, (otherState number key table).accepting = otherAccepting key)
    (hagree : ∀ word key, Leads step symbols first word key →
      otherAccepting (image key) = accepting key) :
    Homomorphism (ofExploration exploration alphabet state)
      (ofExploration others otherAlphabet otherState) (imageNumber exploration others image) where
  start := by
    refine ⟨0, ?_, start_ofExploration hcomplete.first_key, ?_⟩
    · rw [size_states_ofExploration, Numbering.lt_size_iff]
      exact ⟨first, hcomplete.first_key⟩
    · rw [imageNumber_zero hcomplete hothers hleads]
      exact start_ofExploration hothers.first_key
  accepting := by
    intro index found hfound
    rw [state?_eq_ok_iff, getElem?_states_ofExploration, Option.map_eq_some_iff] at hfound
    obtain ⟨key, hkey, rfl⟩ := hfound
    obtain ⟨word, hword⟩ := (hcomplete.sound index key hkey).exists_leads
    obtain ⟨other, hother, hequal⟩ := exists_state_of_key otherAlphabet hotherAccepting
      (key?_imageNumber hothers hleads hkey hword)
    exact ⟨other, hother, by rw [hequal, haccepting, hagree word key hword]⟩
  next := by
    intro index symbol reached hnext
    have hbound : index < exploration.found.size := by
      rw [← @size_states_ofExploration κ _ exploration alphabet state]
      obtain ⟨found, hfound, -⟩ := Traversal.bind_eq_ok_iff.1 hnext
      exact (Array.getElem?_eq_some_iff.1 (state?_eq_ok_iff.1 hfound)).1
    obtain ⟨key, hkey⟩ := Numbering.lt_size_iff.1 hbound
    obtain ⟨word, hword⟩ := (hcomplete.sound index key hkey).exists_leads
    have himage := key?_imageNumber hothers hleads hkey hword
    obtain ⟨own, hown, hreached⟩ :=
      next_eq_some_iff alphabet hcomplete htransitions hkey hword symbol
    obtain rfl : own = reached := Except.ok.inj (hown.symm.trans hnext)
    obtain ⟨other, hother, hotherReached⟩ := next_eq_some_iff otherAlphabet hothers
      hotherTransitions himage ((hleads word _).2 ⟨key, hword, rfl⟩) symbol
    rw [hother]
    congr 1
    cases own with
    | some target =>
      obtain ⟨final, hfinal, hlast⟩ := (hreached target).1 rfl
      exact (hotherReached _).2 ⟨image final, key?_imageNumber hothers hleads hfinal hlast,
        (hleads _ _).2 ⟨final, hlast, rfl⟩⟩
    | none =>
      rw [Option.map_none, Option.eq_none_iff_forall_ne_some]
      intro target htarget
      obtain ⟨_, -, hlast⟩ := (hotherReached target).1 htarget
      obtain ⟨final, hfinal, -⟩ := (hleads _ _).1 hlast
      obtain ⟨number, hnumber⟩ := hcomplete.exists_number hcomplete.first_key hfinal
      cases (hreached number).2 ⟨final, hnumber, hfinal⟩
  onto := by
    intro number hnumber
    rw [size_states_ofExploration, Numbering.lt_size_iff] at hnumber
    obtain ⟨key, hkey⟩ := hnumber
    obtain ⟨word, hword⟩ := (hothers.sound number key hkey).exists_leads
    obtain ⟨origin, horigin, rfl⟩ := (hleads word key).1 hword
    obtain ⟨index, hindex⟩ := hcomplete.exists_number hcomplete.first_key horigin
    refine ⟨index, ?_, ?_⟩
    · rw [size_states_ofExploration, Numbering.lt_size_iff]
      exact ⟨origin, hindex⟩
    · exact Numbering.key?_injective (key?_imageNumber hothers hleads hindex horigin) hkey

end Image

end Search

end RegexAutomata.Dfa
