import RegexAutomata.Proofs.Exploration
import RegexAutomata.Proofs.Exploration.Limit

/-!
# Fresh edges

An edge is fresh if it was the first to lead to its key.  Row by row, the fresh edges of a search
lead to all keys but the first one, in the order of their numbers.  A row can be read symbol by
symbol, since it has at most one edge for each.
-/

namespace RegexAutomata

namespace Discovery

/-- Where an edge leads that was the first to lead there. -/
def freshTarget? (edge : Discovery) : Option Nat :=
  if edge.fresh then some edge.target else none

def ofSymbol? (row : List Discovery) (symbol : String) : Option Discovery :=
  row.find? fun edge => edge.symbol = symbol

theorem ofSymbol?_eq_none {row : List Discovery} {symbol : String}
    (habsent : symbol ∉ row.map Discovery.symbol) : ofSymbol? row symbol = none := by
  rw [ofSymbol?, List.find?_eq_none]
  intro edge hedge hsymbol
  exact habsent (of_decide_eq_true hsymbol ▸ List.mem_map_of_mem hedge)

theorem symbol_of_ofSymbol? {row : List Discovery} {symbol : String} {edge : Discovery}
    (hedge : ofSymbol? row symbol = some edge) : edge.symbol = symbol := by
  rw [ofSymbol?] at hedge
  simpa using List.find?_some hedge

theorem target_ofSymbol? (row : List Discovery) (symbol : String) :
    (ofSymbol? row symbol).map target =
      Table.value? symbol (row.map fun edge => (edge.symbol, edge.target)) := by
  induction row with
  | nil => rfl
  | cons edge rest ih =>
    by_cases hsymbol : edge.symbol = symbol
    · simp [ofSymbol?, Table.value?, hsymbol]
    · simpa [ofSymbol?, Table.value?, hsymbol] using ih

theorem freshTarget?_ofSymbol? (row : List Discovery) (symbol : String) :
    (if (ofSymbol? row symbol).any fresh then some ((ofSymbol? row symbol).map target)
        else none) = ((ofSymbol? row symbol).bind freshTarget?).map some := by
  cases ofSymbol? row symbol with
  | none => rfl
  | some edge =>
    rw [Option.any_some, Option.bind_some, freshTarget?]
    cases edge.fresh <;> rfl

end Discovery

namespace Exploration

variable {κ : Type} [Ord κ] {step : κ → String → Except Failure (Option κ)}
  {symbols : List String}

section Row

variable {found : Numbering κ} {key : κ} {row : List Discovery}

/-- A row has its edges in the order of the alphabet, and at most one for each symbol. -/
theorem RowOf.symbols_sublist (hrow : RowOf step found key symbols row) :
    (row.map Discovery.symbol).Sublist symbols := by
  induction hrow with
  | nil => exact .slnil
  | skip _ _ ih => exact ih.cons _
  | edge _ _ _ _ ih => exact ih.cons_cons _

/-- What is found for the symbols of the alphabet, one after the other, is the whole row. -/
theorem RowOf.filterMap_ofSymbol? (hrow : RowOf step found key symbols row)
    (hsymbols : symbols.Nodup) : symbols.filterMap (Discovery.ofSymbol? row) = row := by
  induction hrow with
  | nil => rfl
  | @skip symbol symbols row _ hrow ih =>
    rw [List.nodup_cons] at hsymbols
    have habsent : Discovery.ofSymbol? row symbol = none :=
      Discovery.ofSymbol?_eq_none fun hsymbol =>
        hsymbols.1 (hrow.symbols_sublist.subset hsymbol)
    rw [List.filterMap_cons_none habsent, ih hsymbols.2]
  | @edge symbol symbols row next target fresh _ _ hrow ih =>
    rw [List.nodup_cons] at hsymbols
    have hothers : ∀ other ∈ symbols,
        Discovery.ofSymbol? (⟨symbol, target, fresh⟩ :: row) other =
          Discovery.ofSymbol? row other := by
      intro other hother
      have hdifferent : symbol ≠ other := fun hsame => hsymbols.1 (hsame ▸ hother)
      exact List.find?_cons_of_neg (by simpa using hdifferent)
    have hown : Discovery.ofSymbol? (⟨symbol, target, fresh⟩ :: row) symbol =
        some ⟨symbol, target, fresh⟩ := List.find?_cons_of_pos (decide_eq_true rfl)
    rw [List.filterMap_cons_some hown, List.filterMap_congr hothers, ih hsymbols.2]

end Row

theorem getElem?_entries {exploration : Exploration κ} {number : Nat} :
    exploration.entries[number]? = (exploration.found.key? number).map fun key =>
      (key, exploration.rows[number]?.getD []) := by
  rw [entries, List.getElem?_mapIdx, Array.getElem?_toList]
  rfl

/-- When a search has ended, an entry is a key with its row. -/
theorem Complete.of_mem_entries {first : κ} {exploration : Exploration κ} {key : κ}
    {row : List Discovery} (hcomplete : Complete step symbols first exploration)
    (hentry : (key, row) ∈ exploration.entries) :
    ∃ number, exploration.found.key? number = some key ∧
      RowOf step exploration.found key symbols row := by
  obtain ⟨number, hnumber⟩ := List.mem_iff_getElem?.1 hentry
  rw [getElem?_entries, Option.map_eq_some_iff] at hnumber
  obtain ⟨other, hkey, hentry⟩ := hnumber
  obtain ⟨made, hrow, hrowOf⟩ := hcomplete.exists_row hkey
  rw [hrow, Option.getD_some] at hentry
  obtain ⟨rfl, rfl⟩ := Prod.mk.inj hentry
  exact ⟨number, hkey, hrowOf⟩

/-- When a search has ended, the rows beside its keys are all its rows. -/
theorem Complete.rows_eq_entries {first : κ} {exploration : Exploration κ}
    (hcomplete : Complete step symbols first exploration) :
    exploration.entries.map Prod.snd = exploration.rows.toList := by
  apply List.ext_getElem?
  intro number
  rw [entries, List.getElem?_map, List.getElem?_mapIdx, Array.getElem?_toList,
    Array.getElem?_toList]
  by_cases hbound : number < exploration.found.size
  · have hrow : number < exploration.rows.size := hcomplete.rows_eq ▸ hbound
    have hkey : number < exploration.found.keys.size := hbound
    simp [hrow, hkey]
  · have hrow : ¬ number < exploration.rows.size := hcomplete.rows_eq ▸ hbound
    have hkey : ¬ number < exploration.found.keys.size := hbound
    simp [hrow, hkey]

variable [Std.TransOrd κ] [Std.LawfulEqOrd κ]

/-- A row that is made has its edges in the order of the alphabet. -/
theorem symbols_expand {limit : Option Int} {key : κ} {found final : Numbering κ}
    {row : List Discovery} (hexpand : expand step limit key symbols found = .ok (row, final)) :
    (row.map Discovery.symbol).Sublist symbols := by
  induction symbols generalizing found row with
  | nil =>
    cases hexpand
    exact .slnil
  | cons symbol symbols ih =>
    rcases expand_cons_eq_ok hexpand with
      ⟨-, hrest⟩ | ⟨next, target, fresh, extended, rest, -, -, hrest, rfl⟩
    · exact (ih hrest).cons _
    · exact (ih hrest).cons_cons _

/-- The fresh edges of a row lead to the keys that are numbered while it is made. -/
theorem freshTargets_expand {limit : Option Int} {key : κ} {found final : Numbering κ}
    {row : List Discovery} (hexpand : expand step limit key symbols found = .ok (row, final)) :
    row.filterMap Discovery.freshTarget? = List.range' found.size (final.size - found.size) := by
  induction symbols generalizing found row with
  | nil =>
    cases hexpand
    rw [Nat.sub_self]
    rfl
  | cons symbol symbols ih =>
    rcases expand_cons_eq_ok hexpand with
      ⟨-, hrest⟩ | ⟨next, target, fresh, extended, rest, -, hlocate, hrest, rfl⟩
    · exact ih hrest
    · rcases locate_eq_ok hlocate with ⟨-, rfl, rfl⟩ | ⟨hnew, rfl, rfl, rfl⟩
      · rw [List.filterMap_cons_none rfl]
        exact ih hrest
      · have hfresh : Discovery.freshTarget? ⟨symbol, found.size, true⟩ = some found.size := rfl
        have hgrows := expand_size_le hrest
        rw [size_push] at hgrows
        have hcount : final.size - found.size = final.size - (found.size + 1) + 1 := by omega
        rw [List.filterMap_cons_some hfresh, ih hrest, size_push, hcount, List.range'_succ]

def freshTargets (exploration : Exploration κ) : List Nat :=
  exploration.rows.toList.flatMap fun row => row.filterMap Discovery.freshTarget?

/-- The new keys take the numbers in a row from the next free one on. -/
theorem freshTargets_continueFrom {fuel : Nat} {exploration final : Exploration κ}
    (hcontinue : continueFrom step none symbols fuel exploration = .ok final) :
    final.freshTargets = exploration.freshTargets ++
      List.range' exploration.found.size (final.found.size - exploration.found.size) := by
  induction fuel generalizing exploration with
  | zero =>
    cases hcontinue
    simp
  | succ fuel ih =>
    rcases continueFrom_succ_eq_ok hcontinue with ⟨-, rfl⟩ | ⟨key, row, found, -, hexpand, hrest⟩
    · simp
    · have hgrown := expand_size_le hexpand
      have hgrows := continueFrom_size_le hrest
      have hpush : (Exploration.mk found (exploration.rows.push row)).freshTargets =
          exploration.freshTargets ++ row.filterMap Discovery.freshTarget? := by
        simp [freshTargets]
      dsimp only at hgrows
      have hmiddle : exploration.found.size + (found.size - exploration.found.size) =
          found.size := by omega
      have hwhole : found.size - exploration.found.size + (final.found.size - found.size) =
          final.found.size - exploration.found.size := by omega
      rw [ih hrest, hpush, freshTargets_expand hexpand, List.append_assoc]
      dsimp only
      rw [← hwhole, ← List.range'_append_1, hmiddle]

/-- The fresh edges lead to all keys but the first one, in the order of their numbers. -/
theorem freshTargets_run {fuel : Nat} {first : κ} {final : Exploration κ}
    (hrun : run step none symbols fuel first = .ok final) :
    final.freshTargets = List.range' 1 (final.found.size - 1) := by
  obtain ⟨⟨target, fresh, found⟩, hlocate, hcontinue⟩ := Traversal.bind_eq_ok_iff.1 hrun
  rcases locate_eq_ok hlocate with ⟨hnumber, -, -⟩ | ⟨hnew, -, -, rfl⟩
  · cases Numbering.number?_empty.symm.trans hnumber
  · have hone : (Numbering.empty.push first hnew).size = 1 := size_push hnew
    rw [freshTargets_continueFrom hcontinue]
    simp [freshTargets, hone]

end Exploration
end RegexAutomata
