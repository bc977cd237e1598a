import RegexAutomata.Position.FollowTable
import RegexAutomata.Proofs.Collection.Traversal
import RegexAutomata.Proofs.Position.MarkedLanguage

/-!
# Steps through a table of positions

A step from a set of listed positions never fails.  It leads to the set of all positions that may
follow a position of the set with the symbol in question.
-/

namespace RegexAutomata

def MarkedRegex.carrying (marked : MarkedRegex) (key : List Position) (symbol : String) :
    List Position :=
  key.filter fun position => (position, symbol) ∈ marked.leaves

theorem MarkedRegex.mem_carrying {marked : MarkedRegex} {key : List Position} {symbol : String}
    {position : Position} :
    position ∈ marked.carrying key symbol ↔
      position ∈ key ∧ (position, symbol) ∈ marked.leaves := by
  rw [carrying, List.mem_filter, decide_eq_true_iff]

theorem MarkedRegex.carrying_subset (marked : MarkedRegex) (key : List Position)
    (symbol : String) : marked.carrying key symbol ⊆ key :=
  List.filter_subset_self _

namespace FollowTable

variable {table : FollowTable} {key : List Position} {symbol : String}

/-- Every position of a set has a symbol and followers. -/
def Lists (table : FollowTable) (key : List Position) : Prop :=
  ∀ position ∈ key, (∃ value, table.symbolAt position = .ok value) ∧
    ∃ followers, table.followersOf position = .ok followers

section Marked

variable {marked : MarkedRegex} {position : Position}

theorem symbolAt_ofMarked (hdistinct : marked.Distinct) {value : String} :
    (ofMarked marked).symbolAt position = .ok value ↔ (position, value) ∈ marked.leaves := by
  rw [← Table.value?_eq_some_iff hdistinct, symbolAt, ofMarked]
  split <;> simp_all

theorem followersOf_ofMarked (hposition : position ∈ marked.positions) :
    (ofMarked marked).followersOf position = .ok (marked.followers position) := by
  rw [← MarkedRegex.keys_follow] at hposition
  obtain ⟨followers, hfollowers⟩ :=
    Option.isSome_iff_exists.1 (Table.isSome_value?_iff.2 hposition)
  simp [followersOf, ofMarked, MarkedRegex.followers, hfollowers]

theorem lists_ofMarked (hdistinct : marked.Distinct) (hkey : key ⊆ marked.positions) :
    (ofMarked marked).Lists key := by
  intro position hposition
  obtain ⟨⟨_, value⟩, hleaf, rfl⟩ := List.mem_map.1 (hkey hposition)
  exact ⟨⟨value, (symbolAt_ofMarked hdistinct).2 hleaf⟩, _, followersOf_ofMarked (hkey hposition)⟩

/-- The positions that contribute to a transition are those at which its symbol stands. -/
theorem contributing_ofMarked (hdistinct : marked.Distinct) (hkey : key ⊆ marked.positions)
    (symbol : String) :
    (ofMarked marked).contributing key symbol = .ok (marked.carrying key symbol) := by
  apply Traversal.filterM_of_forall
  intro position hposition
  obtain ⟨value, hvalue⟩ := (lists_ofMarked hdistinct hkey position hposition).1
  have hsymbol : (position, symbol) ∈ marked.leaves ↔ value = symbol := by
    rw [← symbolAt_ofMarked hdistinct, hvalue, Except.ok.injEq]
  simp [hvalue, hsymbol, bind, Except.bind, pure, Except.pure, beq_eq_decide]

theorem followersOfAll_ofMarked (hkey : key ⊆ marked.positions) :
    (ofMarked marked).followersOfAll key =
      .ok (Ascending.unions (key.map marked.followers)) := by
  have hfollowers : key.mapM (ofMarked marked).followersOf = .ok (key.map marked.followers) :=
    Traversal.mapM_eq_map fun position hposition => followersOf_ofMarked (hkey hposition)
  rw [followersOfAll, hfollowers]
  rfl

theorem step_ofMarked (hdistinct : marked.Distinct) (hkey : key ⊆ marked.positions)
    (symbol : String) :
    ∃ found, (ofMarked marked).step key symbol =
        .ok (if found.isEmpty then none else some found) ∧ found.Pairwise (· < ·) ∧
      ∀ position, position ∈ found ↔ ∃ before ∈ key, (before, symbol) ∈ marked.leaves ∧
        position ∈ marked.followers before := by
  have hcarrying := List.Subset.trans (marked.carrying_subset key symbol) hkey
  refine ⟨Ascending.unions ((marked.carrying key symbol).map marked.followers), ?_,
    Ascending.pairwise_unions _, fun position => ?_⟩
  · rw [step, contributing_ofMarked hdistinct hkey]
    simp only [followersOfAll_ofMarked hcarrying, bind, Except.bind, pure, Except.pure]
  · simp [MarkedRegex.mem_carrying, and_assoc]

/-- The table lists all its positions. -/
theorem entries_ofMarked (hdistinct : marked.Distinct) :
    ∃ entries, (ofMarked marked).entries = .ok entries := by
  have hvisit : ∀ position ∈ Ascending.ofList ((ofMarked marked).symbols.map Prod.fst),
      ∃ entry, (do
        return PositionEntry.mk position (← (ofMarked marked).symbolAt position)
          (← (ofMarked marked).followersOf position)) = .ok entry := by
    intro position hposition
    obtain ⟨⟨value, hvalue⟩, followers, hfollowers⟩ :=
      lists_ofMarked hdistinct (List.Subset.refl _) position (Ascending.mem_ofList.1 hposition)
    refine ⟨⟨position, value, followers⟩, ?_⟩
    simp [hvalue, hfollowers, bind, Except.bind, pure, Except.pure]
  obtain ⟨entries, hentries, -⟩ := Traversal.mapM_of_forall hvisit
  exact ⟨entries, hentries⟩

theorem mem_alphabet_ofMarked :
    symbol ∈ (ofMarked marked).alphabet ↔
      ∃ position, (position, symbol) ∈ marked.leaves ∧ position ≠ marked.leaves.length := by
  rw [alphabet, Ascending.mem_ofList, List.mem_map]
  constructor
  · rintro ⟨⟨position, value⟩, hentry, rfl⟩
    obtain ⟨hleaf, hend⟩ := List.mem_filter.1 hentry
    exact ⟨position, hleaf, of_decide_eq_true hend⟩
  · rintro ⟨position, hleaf, hend⟩
    exact ⟨(position, symbol), List.mem_filter.2 ⟨hleaf, decide_eq_true hend⟩, rfl⟩

end Marked

end FollowTable
end RegexAutomata
