import RegexAutomata.Proofs.Exploration.Limit
import RegexAutomata.Proofs.Exploration.Sets

/-!
# The worklist runs dry

The fuel of a search bounds it from outside.  Here the same search is described as a loop without
fuel: as long as there is a key that is not expanded, the next one is expanded.  Wherever the search
with fuel gets to the end, this loop ends, at the same place, and every key has been taken up
exactly once.  A search through sets within a finite whole finds fewer keys than the whole has
subsets, since none of its keys is empty.
-/

namespace RegexAutomata.Exploration

section Loop

variable {κ : Type} [Ord κ] [Std.TransOrd κ] [Std.LawfulEqOrd κ]
  (step : κ → String → Except Failure (Option κ)) (symbols : List String)

/-- The loop expands these keys, one after the other, and then there is none left to expand. -/
inductive Drains : Exploration κ → List κ → Exploration κ → Prop where
  | done {exploration : Exploration κ}
      (hnone : exploration.found.key? exploration.rows.size = none) :
      Drains exploration [] exploration
  | expand {exploration final : Exploration κ} {key : κ} {keys : List κ} {row : List Discovery}
      {found : Numbering κ} (hkey : exploration.found.key? exploration.rows.size = some key)
      (hexpand : Exploration.expand step none key symbols exploration.found = .ok (row, found))
      (hrest : Drains ⟨found, exploration.rows.push row⟩ keys final) :
      Drains exploration (key :: keys) final

/-- From the first key on the loop comes to an end, and it expands every key that has a number then,
in the order of the numbers and no key twice. -/
def ExpandsEachOnce (first : κ) (final : Exploration κ) : Prop :=
  final.found.keys.toList.Nodup ∧
    ∃ found, locate none .empty first = .ok (0, true, found) ∧
      Drains step symbols { found } final.found.keys.toList final

variable {step symbols} {exploration final : Exploration κ} {keys : List κ}

theorem extends_locate {limit : Option Int} {found extended : Numbering κ} {key : κ} {target : Nat}
    {fresh : Bool} (hlocate : locate limit found key = .ok (target, fresh, extended)) :
    found.Extends extended := by
  rcases locate_eq_ok hlocate with ⟨-, -, rfl⟩ | ⟨hnew, -, -, rfl⟩
  · exact .refl _
  · exact Numbering.extends_push

theorem extends_expand {limit : Option Int} {found extended : Numbering κ} {key : κ}
    {row : List Discovery} (hexpand : expand step limit key symbols found = .ok (row, extended)) :
    found.Extends extended := by
  induction symbols generalizing found row with
  | nil =>
    cases hexpand
    exact .refl _
  | cons symbol symbols ih =>
    rcases expand_cons_eq_ok hexpand with
      ⟨-, hrest⟩ | ⟨next, target, fresh, middle, rest, -, hlocate, hrest, -⟩
    · exact ih hrest
    · exact (extends_locate hlocate).trans (ih hrest)

theorem Drains.extends (hdrains : Drains step symbols exploration keys final) :
    exploration.found.Extends final.found := by
  induction hdrains with
  | done => exact .refl _
  | expand _ hexpand _ ih => exact (extends_expand hexpand).trans ih

theorem Drains.key?_eq_none (hdrains : Drains step symbols exploration keys final) :
    final.found.key? final.rows.size = none := by
  induction hdrains with
  | done hnone => exact hnone
  | expand _ _ _ ih => exact ih

/-- The loop expands the keys that have no row yet, in the order of their numbers. -/
theorem Drains.eq_drop (hdrains : Drains step symbols exploration keys final) :
    keys = final.found.keys.toList.drop exploration.rows.size := by
  induction hdrains with
  | @done exploration hnone =>
    rw [Numbering.key?, Array.getElem?_eq_none_iff] at hnone
    rw [List.drop_eq_nil_of_le (by simpa using hnone)]
  | @expand exploration final key keys row found hkey hexpand hrest ih =>
    have hfinal : final.found.keys.toList[exploration.rows.size]? = some key := by
      rw [Array.getElem?_toList]
      exact hrest.extends _ _ (extends_expand hexpand _ _ hkey)
    obtain ⟨hbound, hget⟩ := List.getElem?_eq_some_iff.1 hfinal
    rw [List.drop_eq_getElem_cons hbound, hget, ih, Array.size_push]

/-- Any fuel that is enough for the keys gives the result of the loop. -/
theorem Drains.continueFrom_eq (hdrains : Drains step symbols exploration keys final) {fuel : Nat}
    (hfuel : keys.length ≤ fuel) :
    continueFrom step none symbols fuel exploration = .ok final := by
  induction hdrains generalizing fuel with
  | done hnone =>
    cases fuel with
    | zero => rfl
    | succ fuel => rw [continueFrom, hnone]
  | expand hkey hexpand _ ih =>
    cases fuel with
    | zero => simp at hfuel
    | succ fuel =>
      rw [continueFrom, hkey]
      dsimp only
      rw [hexpand]
      exact ih (Nat.le_of_succ_le_succ hfuel)

/-- A loop that stops because nothing is left has expanded one key after the other up to there. -/
theorem exists_drains {fuel : Nat}
    (hcontinue : continueFrom step none symbols fuel exploration = .ok final)
    (hnone : final.found.key? final.rows.size = none) :
    ∃ keys, Drains step symbols exploration keys final := by
  induction fuel generalizing exploration with
  | zero =>
    cases hcontinue
    exact ⟨[], .done hnone⟩
  | succ fuel ih =>
    rcases continueFrom_succ_eq_ok hcontinue with
      ⟨-, rfl⟩ | ⟨key, row, found, hkey, hexpand, hrest⟩
    · exact ⟨[], .done hnone⟩
    · obtain ⟨keys, hkeys⟩ := ih hrest
      exact ⟨key :: keys, .expand hkey hexpand hkeys⟩

/-- The loop ends where the search with fuel gets to the end, however much fuel that takes. -/
theorem exists_drains_iff :
    (∃ keys, Drains step symbols exploration keys final) ↔
      final.found.key? final.rows.size = none ∧
        ∃ fuel, continueFrom step none symbols fuel exploration = .ok final := by
  constructor
  · rintro ⟨keys, hdrains⟩
    exact ⟨hdrains.key?_eq_none, keys.length, hdrains.continueFrom_eq (Nat.le_refl _)⟩
  · rintro ⟨hnone, fuel, hcontinue⟩
    exact exists_drains hcontinue hnone

omit [Std.TransOrd κ] [Std.LawfulEqOrd κ] in
theorem Complete.key?_size {first : κ} (hcomplete : Complete step symbols first final) :
    final.found.key? final.rows.size = none := by
  rw [hcomplete.rows_eq]
  simp [Numbering.key?, Numbering.size]

/-- Where the search ends, the loop has expanded each key once. -/
theorem expandsEachOnce_run {fuel : Nat} {first : κ}
    (hrun : run step none symbols fuel first = .ok final)
    (hcomplete : Complete step symbols first final) :
    ExpandsEachOnce step symbols first final := by
  obtain ⟨found, hlocate, -⟩ := exists_exploring step symbols first
  rw [run, hlocate] at hrun
  obtain ⟨keys, hdrains⟩ := exists_drains_iff.2 ⟨hcomplete.key?_size, fuel, hrun⟩
  refine ⟨final.found.nodup_keys, found, hlocate, ?_⟩
  have hkeys : keys = final.found.keys.toList := hdrains.eq_drop
  exact hkeys ▸ hdrains

end Loop

/-- A search through sets that starts with a set that is not empty finds fewer sets than there are
subsets. -/
theorem Collects.size_lt {step : List Int → String → Except Failure (Option (List Int))}
    {symbols : List String} {relation : Int → String → Int → Prop} {whole : Finset Int}
    {first : List Int} {exploration : Exploration (List Int)}
    (hcollects : Collects step symbols relation whole) (hfirst : first.Pairwise (· < ·))
    (hwithin : ∀ id ∈ first, id ∈ whole) (hnonempty : first ≠ [])
    (hexploring : Exploring step symbols first exploration) :
    exploration.found.size < 2 ^ whole.card := by
  have hbound : exploration.found.size ≤ 2 ^ whole.card - 1 := by
    refine hexploring.size_le fun keys hnodup hkeys => Nat.le_sub_one_of_lt ?_
    have hempty : [] ∉ keys := fun hmem =>
      hcollects.ne_nil_of_reachable hfirst hwithin hnonempty (hkeys [] hmem) rfl
    have hall : ([] :: keys).length ≤ 2 ^ whole.card := by
      apply Ascending.length_le_two_pow (List.nodup_cons.2 ⟨hempty, hnodup⟩)
      · exact List.forall_mem_cons.2 ⟨.nil, fun key hkey =>
          (hcollects.of_reachable hfirst hwithin (hkeys key hkey)).1⟩
      · exact List.forall_mem_cons.2 ⟨List.forall_mem_nil _, fun key hkey =>
          (hcollects.of_reachable hfirst hwithin (hkeys key hkey)).2⟩
    exact hall
  exact Nat.lt_of_le_of_lt hbound (Nat.sub_one_lt (Nat.two_pow_pos _).ne')

end RegexAutomata.Exploration
