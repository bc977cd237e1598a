import RegexAutomata.Proofs.Collection.Ascending
import RegexAutomata.Proofs.Exploration

/-!
# Searches through sets

The keys of both constructions are ascending lists of numbers, and a step from one set collects all
numbers that are related by a symbol to a member of the set, unless there are none.  Along a word
the search then reaches the set of all numbers related by the word to a member of the first set.
-/

namespace RegexAutomata.Exploration

/-- Two numbers are related by a word, symbol by symbol. -/
def Threads (relation : Int → String → Int → Prop) : Int → List String → Int → Prop
  | before, [], after => before = after
  | before, symbol :: rest, after =>
    ∃ middle, relation before symbol middle ∧ Threads relation middle rest after

theorem Threads.append {relation : Int → String → Int → Prop} {before middle after : Int}
    {left right : List String} (hleft : Threads relation before left middle)
    (hright : Threads relation middle right after) :
    Threads relation before (left ++ right) after := by
  induction left generalizing before with
  | nil =>
    obtain rfl : before = middle := hleft
    exact hright
  | cons symbol rest ih =>
    obtain ⟨next, hrelation, hrest⟩ := hleft
    exact ⟨next, hrelation, ih hrest⟩

/-- From sets within a finite whole, a step collects all numbers that are related by the symbol. -/
structure Collects (step : List Int → String → Except Failure (Option (List Int)))
    (symbols : List String) (relation : Int → String → Int → Prop) (whole : Finset Int) :
    Prop where
  step_eq : ∀ key : List Int, (∀ id ∈ key, id ∈ whole) → ∀ symbol ∈ symbols, ∃ found : List Int,
    step key symbol = .ok (if found.isEmpty then none else some found) ∧
      found.Pairwise (· < ·) ∧ ∀ id, id ∈ found ↔ ∃ before ∈ key, relation before symbol id
  symbol_mem : ∀ before ∈ whole, ∀ symbol id, relation before symbol id → symbol ∈ symbols
  closed : ∀ before ∈ whole, ∀ symbol id, relation before symbol id → id ∈ whole

namespace Collects

variable {step : List Int → String → Except Failure (Option (List Int))} {symbols : List String}
  {relation : Int → String → Int → Prop} {whole : Finset Int} {first key : List Int}

theorem of_step (hcollects : Collects step symbols relation whole)
    (hkey : ∀ id ∈ key, id ∈ whole) {symbol : String} (hsymbol : symbol ∈ symbols)
    {next : List Int} (hstep : step key symbol = .ok (some next)) :
    next.Pairwise (· < ·) ∧ next ≠ [] ∧ (∀ id ∈ next, id ∈ whole) ∧
      ∀ id, id ∈ next ↔ ∃ before ∈ key, relation before symbol id := by
  obtain ⟨found, hfound, hascending, hmem⟩ := hcollects.step_eq key hkey symbol hsymbol
  rw [hfound] at hstep
  cases hempty : found.isEmpty with
  | true => simp [hempty] at hstep
  | false =>
    obtain rfl : found = next := by simpa [hempty] using hstep
    refine ⟨hascending, List.isEmpty_eq_false_iff.1 hempty, fun id hid => ?_, hmem⟩
    obtain ⟨before, hbefore, hrelation⟩ := (hmem id).1 hid
    exact hcollects.closed before (hkey before hbefore) symbol id hrelation

theorem exists_step (hcollects : Collects step symbols relation whole)
    (hkey : ∀ id ∈ key, id ∈ whole) {before id : Int} {symbol : String} (hbefore : before ∈ key)
    (hrelation : relation before symbol id) :
    symbol ∈ symbols ∧ ∃ next, step key symbol = .ok (some next) ∧ id ∈ next := by
  have hsymbol := hcollects.symbol_mem before (hkey before hbefore) symbol id hrelation
  obtain ⟨found, hfound, -, hmem⟩ := hcollects.step_eq key hkey symbol hsymbol
  have hid : id ∈ found := (hmem id).2 ⟨before, hbefore, hrelation⟩
  have hnonempty : found.isEmpty = false := List.isEmpty_eq_false_iff_exists_mem.2 ⟨id, hid⟩
  refine ⟨hsymbol, found, ?_, hid⟩
  rw [hfound, hnonempty]
  rfl

/-- A set that a word leads to consists of the numbers that are related by the word. -/
theorem mem_of_leads (hcollects : Collects step symbols relation whole)
    (hkey : ∀ id ∈ key, id ∈ whole) {word : List String} {final : List Int}
    (hleads : Leads step symbols key word final) (id : Int) :
    id ∈ final ↔ ∃ before ∈ key, Threads relation before word id := by
  induction hleads with
  | nil key => simp [Threads]
  | cons hsymbol hstep _ ih =>
    obtain ⟨-, -, hnext, hmem⟩ := hcollects.of_step hkey hsymbol hstep
    rw [ih hnext]
    constructor
    · rintro ⟨middle, hmiddle, hrest⟩
      obtain ⟨before, hbefore, hrelation⟩ := (hmem middle).1 hmiddle
      exact ⟨before, hbefore, middle, hrelation, hrest⟩
    · rintro ⟨before, hbefore, middle, hrelation, hrest⟩
      exact ⟨middle, (hmem middle).2 ⟨before, hbefore, hrelation⟩, hrest⟩

/-- A word leads to some set if it relates anything to a member of the first set. -/
theorem exists_leads (hcollects : Collects step symbols relation whole)
    (hkey : ∀ id ∈ key, id ∈ whole) {before id : Int} (hbefore : before ∈ key)
    {word : List String} (hthreads : Threads relation before word id) :
    ∃ final, Leads step symbols key word final := by
  induction word generalizing key before with
  | nil => exact ⟨key, .nil key⟩
  | cons symbol rest ih =>
    obtain ⟨middle, hrelation, hrest⟩ := hthreads
    obtain ⟨hsymbol, next, hstep, hmiddle⟩ := hcollects.exists_step hkey hbefore hrelation
    obtain ⟨-, -, hnext, -⟩ := hcollects.of_step hkey hsymbol hstep
    obtain ⟨final, hfinal⟩ := ih hnext hmiddle hrest
    exact ⟨final, .cons hsymbol hstep hfinal⟩

theorem exists_leads_mem_iff (hcollects : Collects step symbols relation whole)
    (hkey : ∀ id ∈ key, id ∈ whole) {word : List String} {id : Int} :
    (∃ final, Leads step symbols key word final ∧ id ∈ final) ↔
      ∃ before ∈ key, Threads relation before word id := by
  constructor
  · rintro ⟨final, hleads, hid⟩
    exact (hcollects.mem_of_leads hkey hleads id).1 hid
  · rintro ⟨before, hbefore, hthreads⟩
    obtain ⟨final, hleads⟩ := hcollects.exists_leads hkey hbefore hthreads
    exact ⟨final, hleads, (hcollects.mem_of_leads hkey hleads id).2 ⟨before, hbefore, hthreads⟩⟩

theorem of_reachable (hcollects : Collects step symbols relation whole)
    (hfirst : first.Pairwise (· < ·)) (hwithin : ∀ id ∈ first, id ∈ whole)
    (hreachable : Reachable step symbols first key) :
    key.Pairwise (· < ·) ∧ ∀ id ∈ key, id ∈ whole := by
  induction hreachable with
  | refl => exact ⟨hfirst, hwithin⟩
  | tail _ hstep ih =>
    obtain ⟨symbol, hsymbol, hstep⟩ := hstep
    obtain ⟨hascending, -, hnext, -⟩ := hcollects.of_step ih.2 hsymbol hstep
    exact ⟨hascending, hnext⟩

/-- Only the first set may be empty. -/
theorem ne_nil_of_reachable (hcollects : Collects step symbols relation whole)
    (hfirst : first.Pairwise (· < ·)) (hwithin : ∀ id ∈ first, id ∈ whole) (hnonempty : first ≠ [])
    (hreachable : Reachable step symbols first key) : key ≠ [] := by
  cases hreachable with
  | refl => exact hnonempty
  | tail hbefore hstep =>
    obtain ⟨symbol, hsymbol, hstep⟩ := hstep
    have hkey := (hcollects.of_reachable hfirst hwithin hbefore).2
    exact (hcollects.of_step hkey hsymbol hstep).2.1

/-- There are no more sets to find than subsets of the whole, so the search comes to its end. -/
theorem run_complete (hcollects : Collects step symbols relation whole)
    (hfirst : first.Pairwise (· < ·)) (hwithin : ∀ id ∈ first, id ∈ whole) {fuel : Nat}
    (hfuel : 2 ^ whole.card ≤ fuel) :
    ∃ exploration, run step none symbols fuel first = .ok exploration ∧
      Complete step symbols first exploration := by
  apply Exploration.run_complete
  · intro key hkey symbol hsymbol
    obtain ⟨found, hfound, -⟩ :=
      hcollects.step_eq key (hcollects.of_reachable hfirst hwithin hkey).2 symbol hsymbol
    exact ⟨_, hfound⟩
  · intro keys hnodup hkeys
    apply Nat.le_trans _ hfuel
    apply Ascending.length_le_two_pow hnodup
    · exact fun key hkey => (hcollects.of_reachable hfirst hwithin (hkeys key hkey)).1
    · exact fun key hkey => (hcollects.of_reachable hfirst hwithin (hkeys key hkey)).2

/-- Two searches through sets whose members are related alike are one search. -/
theorem run_eq {otherStep : List Int → String → Except Failure (Option (List Int))}
    {otherRelation : Int → String → Int → Prop} (hcollects : Collects step symbols relation whole)
    (hothers : Collects otherStep symbols otherRelation whole)
    (hsame : ∀ before ∈ whole, ∀ symbol after,
      otherRelation before symbol after ↔ relation before symbol after)
    (hfirst : first.Pairwise (· < ·)) (hwithin : ∀ id ∈ first, id ∈ whole) (fuel : Nat) :
    run otherStep none symbols fuel first = run step none symbols fuel first := by
  refine run_congr (fun key hkey symbol hsymbol => ?_) fun key hkey symbol hsymbol => ?_
  · have hmembers := (hcollects.of_reachable hfirst hwithin hkey).2
    obtain ⟨found, hfound, -⟩ := hcollects.step_eq key hmembers symbol hsymbol
    exact ⟨_, hfound⟩
  · have hmembers := (hcollects.of_reachable hfirst hwithin hkey).2
    obtain ⟨found, hfound, hascending, hmem⟩ := hcollects.step_eq key hmembers symbol hsymbol
    obtain ⟨other, hother, hotherAscending, hmemOther⟩ :=
      hothers.step_eq key hmembers symbol hsymbol
    have hequal : other = found := hotherAscending.eq_of_mem_iff hascending fun id => by
      rw [hmem, hmemOther]
      exact exists_congr fun before => and_congr_right fun hbefore =>
        hsame before (hmembers before hbefore) symbol id
    rw [hfound, hother, hequal]

section Image

variable {otherStep : List Int → String → Except Failure (Option (List Int))}
  {otherSymbols : List String} {otherRelation : Int → String → Int → Prop}
  {otherWhole : Finset Int} {otherFirst : List Int} {image : List Int → List Int}

/-- Let the images of the sets of one search have the members of the sets of another search.  Then
the sets of the other search are these images, word by word. -/
theorem leads_iff_exists_image (hcollects : Collects step symbols relation whole)
    (hfirst : first.Pairwise (· < ·)) (hwithin : ∀ id ∈ first, id ∈ whole) (hnonempty : first ≠ [])
    (hothers : Collects otherStep otherSymbols otherRelation otherWhole)
    (hotherFirst : otherFirst.Pairwise (· < ·)) (hotherWithin : ∀ id ∈ otherFirst, id ∈ otherWhole)
    (hotherNonempty : otherFirst ≠ []) (hascending : ∀ key, (image key).Pairwise (· < ·))
    (hmem : ∀ word key, (∀ id, id ∈ key ↔ ∃ before ∈ first, Threads relation before word id) →
      ∀ id, id ∈ image key ↔ ∃ before ∈ otherFirst, Threads otherRelation before word id)
    (hexists : ∀ word, (∃ id, ∃ before ∈ otherFirst, Threads otherRelation before word id) ↔
      ∃ id, ∃ before ∈ first, Threads relation before word id)
    (word : List String) (key : List Int) :
    Leads otherStep otherSymbols otherFirst word key ↔
      ∃ origin, Leads step symbols first word origin ∧ image origin = key := by
  have hsame : ∀ {origin key : List Int}, Leads step symbols first word origin →
      Leads otherStep otherSymbols otherFirst word key → image origin = key := by
    intro origin key horigin hleads
    have hordered := (hothers.of_reachable hotherFirst hotherWithin hleads.reachable).1
    apply (hascending origin).eq_of_mem_iff hordered
    intro id
    rw [hmem word origin (hcollects.mem_of_leads hwithin horigin) id,
      hothers.mem_of_leads hotherWithin hleads id]
  constructor
  · intro hleads
    obtain ⟨id, hid⟩ := List.exists_mem_of_ne_nil key
      (hothers.ne_nil_of_reachable hotherFirst hotherWithin hotherNonempty hleads.reachable)
    obtain ⟨_, before, hbefore, hthreads⟩ :=
      (hexists word).1 ⟨id, (hothers.mem_of_leads hotherWithin hleads id).1 hid⟩
    obtain ⟨origin, horigin⟩ := hcollects.exists_leads hwithin hbefore hthreads
    exact ⟨origin, horigin, hsame horigin hleads⟩
  · rintro ⟨origin, horigin, rfl⟩
    obtain ⟨id, hid⟩ := List.exists_mem_of_ne_nil origin
      (hcollects.ne_nil_of_reachable hfirst hwithin hnonempty horigin.reachable)
    obtain ⟨_, before, hbefore, hthreads⟩ :=
      (hexists word).2 ⟨id, (hcollects.mem_of_leads hwithin horigin id).1 hid⟩
    obtain ⟨key, hleads⟩ := hothers.exists_leads hotherWithin hbefore hthreads
    rwa [hsame horigin hleads]

end Image

end Collects

end RegexAutomata.Exploration
