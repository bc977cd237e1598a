import Mathlib.Data.List.Nodup
import Mathlib.Logic.Relation
import RegexAutomata.Collection.Table
import RegexAutomata.Exploration

/-!
# Searches find every key once

Without a limit a search numbers exactly the keys that can be reached from the first one, gives
each a number of its own, and lists for each the edges that leave it, provided that no step fails on
the way and that the fuel is not less than the number of keys there are to find.
-/

namespace RegexAutomata

namespace Numbering

variable {κ : Type} [Ord κ]

theorem key?_injective {numbering : Numbering κ} {left right : Nat} {key : κ}
    (hleft : numbering.key? left = some key) (hright : numbering.key? right = some key) :
    left = right := by
  rw [← number?_eq_some_iff] at hleft hright
  exact Option.some.inj (hleft.symm.trans hright)

theorem nodup_keys (numbering : Numbering κ) : numbering.keys.toList.Nodup := by
  rw [List.nodup_iff_getElem?_ne_getElem?]
  intro left right hless hright hequal
  have hkey : numbering.key? right = some numbering.keys.toList[right] := by
    simp [key?]
  have hsame : numbering.key? left = numbering.key? right := by
    simpa [key?] using hequal
  exact absurd (key?_injective (hsame.trans hkey) hkey) (Nat.ne_of_lt hless)

theorem lt_size_iff {numbering : Numbering κ} {number : Nat} :
    number < numbering.size ↔ ∃ key, numbering.key? number = some key := by
  rw [← Option.isSome_iff_exists]
  simp [key?, size]

/-- A numbering that has grown keeps the numbers it had. -/
def Extends (before after : Numbering κ) : Prop :=
  ∀ number key, before.key? number = some key → after.key? number = some key

theorem Extends.refl (numbering : Numbering κ) : numbering.Extends numbering :=
  fun _ _ hkey => hkey

theorem Extends.trans {first second third : Numbering κ} (hfirst : first.Extends second)
    (hsecond : second.Extends third) : first.Extends third :=
  fun number key hkey => hsecond number key (hfirst number key hkey)

variable [Std.TransOrd κ] [Std.LawfulEqOrd κ]

theorem key?_push {numbering : Numbering κ} {key : κ} {hnew : numbering.number? key = none}
    {number : Nat} : (numbering.push key hnew).key? number =
      if number = numbering.size then some key else numbering.key? number := by
  unfold key? size
  rw [keys_push, Array.getElem?_push]

theorem extends_push {numbering : Numbering κ} {key : κ} {hnew : numbering.number? key = none} :
    numbering.Extends (numbering.push key hnew) := by
  intro number other hother
  have hbound : number < numbering.size := (Array.getElem?_eq_some_iff.1 hother).1
  rw [key?_push, if_neg (Nat.ne_of_lt hbound)]
  exact hother

end Numbering

namespace Exploration

variable {κ : Type}

section Word

/-- The steps of a search lead from one key to another along a word over the alphabet. -/
inductive Leads (step : κ → String → Except Failure (Option κ)) (symbols : List String) :
    κ → List String → κ → Prop where
  | nil (key : κ) : Leads step symbols key [] key
  | cons {key next final : κ} {symbol : String} {rest : List String} (hsymbol : symbol ∈ symbols)
      (hstep : step key symbol = .ok (some next)) (hrest : Leads step symbols next rest final) :
      Leads step symbols key (symbol :: rest) final

variable {step : κ → String → Except Failure (Option κ)} {symbols : List String}

theorem leads_nil_iff {key final : κ} : Leads step symbols key [] final ↔ final = key := by
  constructor
  · intro hleads
    cases hleads
    rfl
  · rintro rfl
    exact .nil final

theorem leads_cons_iff {key final : κ} {symbol : String} {rest : List String} :
    Leads step symbols key (symbol :: rest) final ↔
      symbol ∈ symbols ∧ ∃ next, step key symbol = .ok (some next) ∧
        Leads step symbols next rest final := by
  constructor
  · intro hleads
    cases hleads with
    | cons hsymbol hstep hrest => exact ⟨hsymbol, _, hstep, hrest⟩
  · rintro ⟨hsymbol, next, hstep, hrest⟩
    exact .cons hsymbol hstep hrest

theorem Leads.snoc {key middle final : κ} {word : List String} {symbol : String}
    (hleads : Leads step symbols key word middle) (hsymbol : symbol ∈ symbols)
    (hstep : step middle symbol = .ok (some final)) :
    Leads step symbols key (word ++ [symbol]) final := by
  induction hleads with
  | nil => exact .cons hsymbol hstep (.nil final)
  | cons hfirst hnext _ ih => exact .cons hfirst hnext (ih hstep)

/-- The last symbol of a word makes one step from where the word before it leads. -/
theorem leads_snoc_iff {key final : κ} {word : List String} {symbol : String} :
    Leads step symbols key (word ++ [symbol]) final ↔
      ∃ middle, Leads step symbols key word middle ∧ symbol ∈ symbols ∧
        step middle symbol = .ok (some final) := by
  constructor
  · intro hleads
    induction word generalizing key with
    | nil =>
      obtain ⟨hsymbol, next, hstep, hrest⟩ := leads_cons_iff.1 hleads
      obtain rfl := leads_nil_iff.1 hrest
      exact ⟨key, .nil key, hsymbol, hstep⟩
    | cons first rest ih =>
      obtain ⟨hfirst, next, hnext, hrest⟩ := leads_cons_iff.1 hleads
      obtain ⟨middle, hmiddle, hlast⟩ := ih hrest
      exact ⟨middle, .cons hfirst hnext hmiddle, hlast⟩
  · rintro ⟨middle, hleads, hsymbol, hstep⟩
    exact hleads.snoc hsymbol hstep

/-- Steps lead to at most one key along a word. -/
theorem Leads.unique {key left right : κ} {word : List String}
    (hleft : Leads step symbols key word left) (hright : Leads step symbols key word right) :
    left = right := by
  induction hleft with
  | nil => exact (leads_nil_iff.1 hright).symm
  | cons hsymbol hstep _ ih =>
    obtain ⟨-, next, hnext, hrest⟩ := leads_cons_iff.1 hright
    rw [hstep] at hnext
    cases hnext
    exact ih hrest

end Word

variable [Ord κ]

section Row

variable (step : κ → String → Except Failure (Option κ))

def Reachable (symbols : List String) : κ → κ → Prop :=
  Relation.ReflTransGen fun key next => ∃ symbol ∈ symbols, step key symbol = .ok (some next)

/-- A row lists the edges that leave a key, symbol by symbol. -/
inductive RowOf (found : Numbering κ) (key : κ) : List String → List Discovery → Prop where
  | nil : RowOf found key [] []
  | skip {symbol : String} {symbols : List String} {row : List Discovery}
      (hstep : step key symbol = .ok none) (hrow : RowOf found key symbols row) :
      RowOf found key (symbol :: symbols) row
  | edge {symbol : String} {symbols : List String} {row : List Discovery} {next : κ}
      {target : Nat} (fresh : Bool) (hstep : step key symbol = .ok (some next))
      (htarget : found.key? target = some next) (hrow : RowOf found key symbols row) :
      RowOf found key (symbol :: symbols) (⟨symbol, target, fresh⟩ :: row)

variable {step}

theorem RowOf.mono {before after : Numbering κ} {key : κ} {symbols : List String}
    {row : List Discovery} (hextends : before.Extends after)
    (hrow : RowOf step before key symbols row) : RowOf step after key symbols row := by
  induction hrow with
  | nil => exact .nil
  | skip hstep _ ih => exact .skip hstep ih
  | edge fresh hstep htarget _ ih => exact .edge fresh hstep (hextends _ _ htarget) ih

/-- Every key that a step leads to has a number. -/
theorem RowOf.exists_key {found : Numbering κ} {key : κ} {symbols : List String}
    {row : List Discovery} (hrow : RowOf step found key symbols row) {symbol : String}
    (hsymbol : symbol ∈ symbols) {next : κ} (hstep : step key symbol = .ok (some next)) :
    ∃ target, found.key? target = some next := by
  induction hrow with
  | nil => simp at hsymbol
  | @skip other symbols row hnone _ ih =>
    rcases List.mem_cons.1 hsymbol with rfl | hrest
    · simp [hnone] at hstep
    · exact ih hrest
  | @edge other symbols row found target fresh hfound htarget _ ih =>
    rcases List.mem_cons.1 hsymbol with rfl | hrest
    · obtain rfl : found = next := by simpa [hfound] using hstep
      exact ⟨target, htarget⟩
    · exact ih hrest

/-- Where a row leads by a symbol is where the step leads. -/
theorem RowOf.value?_eq_some_iff {found : Numbering κ} {key : κ} {symbols : List String}
    {row : List Discovery} (hrow : RowOf step found key symbols row) {symbol : String}
    {target : Nat} :
    Table.value? symbol (row.map fun edge => (edge.symbol, edge.target)) = some target ↔
      symbol ∈ symbols ∧ ∃ next, step key symbol = .ok (some next) ∧
        found.key? target = some next := by
  induction hrow with
  | nil => simp [Table.value?]
  | @skip other symbols row hstep _ ih =>
    rw [ih, List.mem_cons]
    constructor
    · rintro ⟨hsymbol, hnext⟩
      exact ⟨Or.inr hsymbol, hnext⟩
    · rintro ⟨rfl | hsymbol, next, hnext, htarget⟩
      · simp [hstep] at hnext
      · exact ⟨hsymbol, next, hnext, htarget⟩
  | @edge other symbols row next number fresh hstep hnumber _ ih =>
    rw [List.map_cons, Table.value?, List.mem_cons]
    by_cases hother : other = symbol
    · subst hother
      rw [if_pos rfl, Option.some.injEq]
      constructor
      · rintro rfl
        exact ⟨Or.inl rfl, next, hstep, hnumber⟩
      · rintro ⟨-, found, hfound, htarget⟩
        obtain rfl : next = found := by simpa [hstep] using hfound
        exact Numbering.key?_injective hnumber htarget
    · rw [if_neg hother, ih]
      simp [Ne.symm hother]

end Row

variable {step : κ → String → Except Failure (Option κ)} {symbols : List String} {first : κ}

omit [Ord κ] in
theorem Leads.reachable {key final : κ} {word : List String}
    (hleads : Leads step symbols key word final) : Reachable step symbols key final := by
  induction hleads with
  | nil => exact .refl
  | cons hsymbol hstep _ ih => exact .head ⟨_, hsymbol, hstep⟩ ih

omit [Ord κ] in
/-- A key that can be reached is reached along some word. -/
theorem Reachable.exists_leads {key final : κ}
    (hreachable : Reachable step symbols key final) :
    ∃ word, Leads step symbols key word final := by
  induction hreachable with
  | refl => exact ⟨[], .nil key⟩
  | tail _ hstep ih =>
    obtain ⟨word, hleads⟩ := ih
    obtain ⟨symbol, hsymbol, hstep⟩ := hstep
    exact ⟨word ++ [symbol], hleads.snoc hsymbol hstep⟩

/-- Where a search without a limit stands: every key that is numbered can be reached, and every key
that is expanded has its row. -/
structure Exploring (step : κ → String → Except Failure (Option κ)) (symbols : List String)
    (first : κ) (exploration : Exploration κ) : Prop where
  first_key : exploration.found.key? 0 = some first
  rows_le : exploration.rows.size ≤ exploration.found.size
  sound : ∀ number key, exploration.found.key? number = some key →
    Reachable step symbols first key
  row_of : ∀ number key row, exploration.found.key? number = some key →
    exploration.rows[number]? = some row → RowOf step exploration.found key symbols row

/-- A search that has ended: every key has its row. -/
structure Complete (step : κ → String → Except Failure (Option κ)) (symbols : List String)
    (first : κ) (exploration : Exploration κ) : Prop
    extends Exploring step symbols first exploration where
  rows_eq : exploration.rows.size = exploration.found.size

theorem Exploring.size_le {exploration : Exploration κ} {bound : Nat}
    (hexploring : Exploring step symbols first exploration)
    (hbound : ∀ keys : List κ, keys.Nodup → (∀ key ∈ keys, Reachable step symbols first key) →
      keys.length ≤ bound) : exploration.found.size ≤ bound := by
  have hkeys := hbound exploration.found.keys.toList exploration.found.nodup_keys
  rw [Array.length_toList] at hkeys
  apply hkeys
  intro key hkey
  obtain ⟨number, hnumber⟩ := List.mem_iff_getElem?.1 hkey
  exact hexploring.sound number key (by rw [Numbering.key?, ← Array.getElem?_toList, hnumber])

theorem Complete.exists_row {exploration : Exploration κ} {number : Nat} {key : κ}
    (hcomplete : Complete step symbols first exploration)
    (hkey : exploration.found.key? number = some key) :
    ∃ row, exploration.rows[number]? = some row ∧
      RowOf step exploration.found key symbols row := by
  have hbound : number < exploration.rows.size := by
    rw [hcomplete.rows_eq, Numbering.lt_size_iff]
    exact ⟨key, hkey⟩
  exact ⟨_, Array.getElem?_eq_getElem hbound,
    hcomplete.row_of number key _ hkey (Array.getElem?_eq_getElem hbound)⟩

/-- Whatever the steps lead to from a key with a number has a number. -/
theorem Complete.exists_number {exploration : Exploration κ} {number : Nat} {key final : κ}
    {word : List String} (hcomplete : Complete step symbols first exploration)
    (hkey : exploration.found.key? number = some key) (hleads : Leads step symbols key word final) :
    ∃ index, exploration.found.key? index = some final := by
  induction hleads generalizing number with
  | nil => exact ⟨number, hkey⟩
  | cons hsymbol hstep _ ih =>
    obtain ⟨row, -, hrow⟩ := hcomplete.exists_row hkey
    obtain ⟨index, hindex⟩ := hrow.exists_key hsymbol hstep
    exact ih hindex

variable [Std.TransOrd κ] [Std.LawfulEqOrd κ]

/-- Without a limit a key always gets a number. -/
theorem locate_none (found : Numbering κ) (key : κ) :
    ∃ target fresh extended, locate none found key = .ok (target, fresh, extended) ∧
      found.Extends extended ∧ extended.key? target = some key ∧
      ∀ number other, extended.key? number = some other →
        found.key? number = some other ∨ other = key := by
  unfold locate
  split
  · next number hnumber =>
    exact ⟨number, false, found, rfl, .refl found, Numbering.number?_eq_some_iff.1 hnumber,
      fun _ _ hother => Or.inl hother⟩
  · next hnew =>
    refine ⟨found.size, true, found.push key hnew, rfl, Numbering.extends_push, ?_, ?_⟩
    · rw [Numbering.key?_push, if_pos rfl]
    · intro number other hother
      rw [Numbering.key?_push] at hother
      split at hother
      · exact Or.inr (Option.some.inj hother).symm
      · exact Or.inl hother

/-- If no step fails, expanding a key finds its row, and numbers only keys that a step leads to. -/
theorem expand_none {key : κ} {symbols : List String} (found : Numbering κ)
    (hstep : ∀ symbol ∈ symbols, ∃ next, step key symbol = .ok next) :
    ∃ row final, expand step none key symbols found = .ok (row, final) ∧
      found.Extends final ∧ RowOf step final key symbols row ∧
      ∀ number other, final.key? number = some other →
        found.key? number = some other ∨
          ∃ symbol ∈ symbols, step key symbol = .ok (some other) := by
  induction symbols generalizing found with
  | nil => exact ⟨[], found, rfl, .refl found, .nil, fun _ _ hother => Or.inl hother⟩
  | cons symbol symbols ih =>
    rw [List.forall_mem_cons] at hstep
    obtain ⟨⟨next, hnext⟩, hrest⟩ := hstep
    cases next with
    | none =>
      obtain ⟨row, final, hexpand, hextends, hrow, hsound⟩ := ih found hrest
      refine ⟨row, final, ?_, hextends, .skip hnext hrow, fun number other hother => ?_⟩
      · simp [expand, hnext, hexpand, bind, Except.bind]
      · rcases hsound number other hother with hold | ⟨symbol, hsymbol, hstep⟩
        · exact Or.inl hold
        · exact Or.inr ⟨symbol, List.mem_cons_of_mem _ hsymbol, hstep⟩
    | some next =>
      obtain ⟨target, fresh, extended, hlocate, hgrown, htarget, hnew⟩ := locate_none found next
      obtain ⟨row, final, hexpand, hextends, hrow, hsound⟩ := ih extended hrest
      refine ⟨⟨symbol, target, fresh⟩ :: row, final, ?_, hgrown.trans hextends,
        .edge fresh hnext (hextends _ _ htarget) hrow, fun number other hother => ?_⟩
      · simp [expand, hnext, hlocate, hexpand, bind, Except.bind, pure, Except.pure]
      · rcases hsound number other hother with hold | ⟨symbol, hsymbol, hstep⟩
        · rcases hnew number other hold with hold | rfl
          · exact Or.inl hold
          · exact Or.inr ⟨symbol, List.mem_cons_self, hnext⟩
        · exact Or.inr ⟨symbol, List.mem_cons_of_mem _ hsymbol, hstep⟩

/-- The first key takes the number zero. -/
theorem locate_empty (key : κ) :
    ∃ found, locate none .empty key = .ok (0, true, found) ∧ found.key? 0 = some key ∧
      ∀ number other, found.key? number = some other → other = key := by
  have hnew : (Numbering.empty : Numbering κ).number? key = none := Numbering.number?_empty
  refine ⟨Numbering.empty.push key hnew, ?_, ?_, fun number other hother => ?_⟩
  · unfold locate
    split
    · next number hnumber => simp [hnumber] at hnew
    · rfl
  · exact Numbering.key?_push
  · rw [Numbering.key?_push] at hother
    split at hother
    · exact (Option.some.inj hother).symm
    · simp [Numbering.key?, Numbering.empty] at hother

/-- Expanding the next key leaves the search in order. -/
theorem Exploring.expand {exploration : Exploration κ} {key : κ}
    (hexploring : Exploring step symbols first exploration)
    (hkey : exploration.found.key? exploration.rows.size = some key)
    (hstep : ∀ symbol ∈ symbols, ∃ next, step key symbol = .ok next) :
    ∃ row found, Exploration.expand step none key symbols exploration.found = .ok (row, found) ∧
      Exploring step symbols first ⟨found, exploration.rows.push row⟩ := by
  obtain ⟨row, found, hexpand, hextends, hrow, hnew⟩ := expand_none exploration.found hstep
  refine ⟨row, found, hexpand, hextends _ _ hexploring.first_key, ?_, ?_, ?_⟩
  · rw [Array.size_push]
    exact Numbering.lt_size_iff.2 ⟨key, hextends _ _ hkey⟩
  · intro number other hother
    rcases hnew number other hother with hold | ⟨symbol, hsymbol, hleads⟩
    · exact hexploring.sound number other hold
    · exact (hexploring.sound _ key hkey).tail ⟨symbol, hsymbol, hleads⟩
  · intro number other listed hother hlisted
    rw [Array.getElem?_push] at hlisted
    split at hlisted
    · next hlast =>
      obtain rfl : row = listed := Option.some.inj hlisted
      obtain rfl : key = other := by
        rw [hlast, hextends _ _ hkey] at hother
        exact Option.some.inj hother
      exact hrow
    · have hbound : number < exploration.found.size :=
        Nat.lt_of_lt_of_le (Array.getElem?_eq_some_iff.1 hlisted).1 hexploring.rows_le
      obtain ⟨known, hknown⟩ := Numbering.lt_size_iff.1 hbound
      obtain rfl : known = other := by
        rw [hextends _ _ hknown] at hother
        exact Option.some.inj hother
      exact (hexploring.row_of number known listed hknown hlisted).mono hextends

/-- A search with fuel for all the keys that there are comes to its end. -/
theorem continueFrom_complete {bound fuel : Nat} {exploration : Exploration κ}
    (hstep : ∀ key, Reachable step symbols first key → ∀ symbol ∈ symbols,
      ∃ next, step key symbol = .ok next)
    (hbound : ∀ keys : List κ, keys.Nodup → (∀ key ∈ keys, Reachable step symbols first key) →
      keys.length ≤ bound)
    (hexploring : Exploring step symbols first exploration)
    (hfuel : bound ≤ fuel + exploration.rows.size) :
    ∃ final, continueFrom step none symbols fuel exploration = .ok final ∧
      Complete step symbols first final := by
  induction fuel generalizing exploration with
  | zero =>
    have hsize := hexploring.size_le hbound
    have hrows := hexploring.rows_le
    exact ⟨exploration, rfl, hexploring, by omega⟩
  | succ fuel ih =>
    cases hkey : exploration.found.key? exploration.rows.size with
    | none =>
      have hrows := hexploring.rows_le
      have hsize : ¬ exploration.rows.size < exploration.found.size := by
        rw [Numbering.lt_size_iff, hkey]
        simp
      exact ⟨exploration, by rw [continueFrom, hkey], hexploring, by omega⟩
    | some key =>
      obtain ⟨row, found, hexpand, hnext⟩ :=
        hexploring.expand hkey (hstep key (hexploring.sound _ key hkey))
      have hrest : bound ≤ fuel + (exploration.rows.push row).size := by
        rw [Array.size_push]
        omega
      obtain ⟨final, hfinal, hcomplete⟩ := ih hnext hrest
      refine ⟨final, ?_, hcomplete⟩
      rw [continueFrom, hkey]
      simp [hexpand, hfinal, bind, Except.bind]

/-- A search starts in order. -/
theorem exists_exploring (step : κ → String → Except Failure (Option κ)) (symbols : List String)
    (first : κ) :
    ∃ found, locate none .empty first = .ok (0, true, found) ∧
      Exploring step symbols first { found } := by
  obtain ⟨found, hlocate, hfirst, honly⟩ := locate_empty first
  refine ⟨found, hlocate, hfirst, Nat.zero_le _, fun number key hkey => ?_,
    fun number key row _ hrow => ?_⟩
  · rw [honly number key hkey]
    exact .refl
  · simp at hrow

/-- A search ends with a complete exploration if no step fails at a key that can be reached and no
more keys can be reached than there is fuel. -/
theorem run_complete {fuel : Nat}
    (hstep : ∀ key, Reachable step symbols first key → ∀ symbol ∈ symbols,
      ∃ next, step key symbol = .ok next)
    (hbound : ∀ keys : List κ, keys.Nodup → (∀ key ∈ keys, Reachable step symbols first key) →
      keys.length ≤ fuel) :
    ∃ final, run step none symbols fuel first = .ok final ∧ Complete step symbols first final := by
  obtain ⟨found, hlocate, hexploring⟩ := exists_exploring step symbols first
  obtain ⟨final, hfinal, hcomplete⟩ :=
    continueFrom_complete hstep hbound hexploring (Nat.le_add_right _ _)
  exact ⟨final, by simp [run, hlocate, hfinal, bind, Except.bind], hcomplete⟩

section Congruence

variable {other : κ → String → Except Failure (Option κ)} {fuel : Nat}

theorem expand_congr {key : κ} (hsame : ∀ symbol ∈ symbols, other key symbol = step key symbol)
    (found : Numbering κ) :
    expand other none key symbols found = expand step none key symbols found := by
  induction symbols generalizing found with
  | nil => rfl
  | cons symbol symbols ih =>
    rw [List.forall_mem_cons] at hsame
    simp only [expand, hsame.1, ih hsame.2]

/-- What the steps do from keys out of reach makes no difference. -/
theorem continueFrom_congr {exploration : Exploration κ}
    (hstep : ∀ key, Reachable step symbols first key → ∀ symbol ∈ symbols,
      ∃ next, step key symbol = .ok next)
    (hsame : ∀ key, Reachable step symbols first key → ∀ symbol ∈ symbols,
      other key symbol = step key symbol)
    (hexploring : Exploring step symbols first exploration) :
    continueFrom other none symbols fuel exploration =
      continueFrom step none symbols fuel exploration := by
  induction fuel generalizing exploration with
  | zero => rfl
  | succ fuel ih =>
    rw [continueFrom, continueFrom]
    cases hkey : exploration.found.key? exploration.rows.size with
    | none => rfl
    | some key =>
      have hreachable := hexploring.sound _ key hkey
      obtain ⟨row, found, hexpand, hnext⟩ := hexploring.expand hkey (hstep key hreachable)
      dsimp only
      rw [expand_congr (hsame key hreachable), hexpand]
      exact ih hnext

/-- A search asks for steps only from keys that can be reached. -/
theorem run_congr
    (hstep : ∀ key, Reachable step symbols first key → ∀ symbol ∈ symbols,
      ∃ next, step key symbol = .ok next)
    (hsame : ∀ key, Reachable step symbols first key → ∀ symbol ∈ symbols,
      other key symbol = step key symbol) :
    run other none symbols fuel first = run step none symbols fuel first := by
  obtain ⟨found, hlocate, hexploring⟩ := exists_exploring step symbols first
  rw [run, run, hlocate]
  exact continueFrom_congr hstep hsame hexploring

end Congruence

end Exploration
end RegexAutomata
