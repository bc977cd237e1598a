import RegexAutomata.Proofs.Exploration.Fresh

/-!
# The order of discovery

A search finds its edges row by row, and in each row symbol by symbol.  Read in this order, each
edge leads to a key that is known by then, or to a new one, which takes the next number.  So the
edge that discovers a key is the first one to lead to this key or to any later one.
-/

namespace RegexAutomata.Exploration

/-- Edges, each with the number of the key that it leaves, and of which each leads from a known key
to a known one, or to the next one, which is known from there on. -/
inductive Unfolds : Nat → List (Nat × Discovery) → Nat → Prop where
  | nil (known : Nat) : Unfolds known [] known
  | old {known final source : Nat} {edge : Discovery} {rest : List (Nat × Discovery)}
      (hsource : source < known) (htarget : edge.target < known)
      (hrest : Unfolds known rest final) : Unfolds known ((source, edge) :: rest) final
  | new {known final source : Nat} {edge : Discovery} {rest : List (Nat × Discovery)}
      (hsource : source < known) (htarget : edge.target = known)
      (hrest : Unfolds (known + 1) rest final) : Unfolds known ((source, edge) :: rest) final

namespace Unfolds

variable {known middle final number : Nat} {left right arrows : List (Nat × Discovery)}

theorem append (hleft : Unfolds known left middle) (hright : Unfolds middle right final) :
    Unfolds known (left ++ right) final := by
  induction hleft with
  | nil => exact hright
  | old hsource htarget _ ih => exact .old hsource htarget (ih hright)
  | new hsource htarget _ ih => exact .new hsource htarget (ih hright)

/-- Before the edge that discovers a key, all edges lead to smaller numbers. -/
theorem exists_split (hunfolds : Unfolds known arrows final) (hnew : known ≤ number)
    (hnumber : number < final) :
    ∃ before source edge after, arrows = before ++ (source, edge) :: after ∧
      edge.target = number ∧ source < number ∧ ∀ arrow ∈ before, arrow.2.target < number := by
  induction hunfolds with
  | nil => omega
  | @old known final source edge rest hsource htarget _ ih =>
    obtain ⟨before, origin, found, after, rfl, hfound, horigin, hbefore⟩ := ih hnew hnumber
    refine ⟨(source, edge) :: before, origin, found, after, rfl, hfound, horigin, ?_⟩
    exact List.forall_mem_cons.2 ⟨Nat.lt_of_lt_of_le htarget hnew, hbefore⟩
  | @new known final source edge rest hsource htarget _ ih =>
    rcases Nat.eq_or_lt_of_le hnew with rfl | hlater
    · exact ⟨[], source, edge, rest, rfl, htarget, hsource, List.forall_mem_nil _⟩
    · obtain ⟨before, origin, found, after, rfl, hfound, horigin, hbefore⟩ := ih hlater hnumber
      refine ⟨(source, edge) :: before, origin, found, after, rfl, hfound, horigin, ?_⟩
      exact List.forall_mem_cons.2 ⟨htarget.symm ▸ hlater, hbefore⟩

end Unfolds

variable {κ : Type} [Ord κ]

/-- All edges in the order in which they are found, each with the number of the key that it
leaves. -/
def arrows (exploration : Exploration κ) : List (Nat × Discovery) :=
  exploration.rows.toList.zipIdx.flatMap fun entry => entry.1.map fun edge => (entry.2, edge)

theorem mem_arrows {exploration : Exploration κ} {source : Nat} {edge : Discovery} :
    (source, edge) ∈ exploration.arrows ↔
      ∃ row, exploration.rows[source]? = some row ∧ edge ∈ row := by
  simp only [arrows, List.mem_flatMap, List.mem_map, Prod.mk.injEq, Prod.exists,
    List.mem_zipIdx_iff_getElem?, Array.getElem?_toList]
  constructor
  · rintro ⟨row, number, hrow, found, hfound, rfl, rfl⟩
    exact ⟨row, hrow, hfound⟩
  · rintro ⟨row, hrow, hedge⟩
    exact ⟨row, source, hrow, edge, hedge, rfl, rfl⟩

theorem arrows_push (found : Numbering κ) (rows : Array (List Discovery)) (row : List Discovery) :
    (Exploration.mk found (rows.push row)).arrows =
      (Exploration.mk found rows).arrows ++ row.map fun edge => (rows.size, edge) := by
  simp [arrows, List.zipIdx_append]

section Search

variable {step : κ → String → Except Failure (Option κ)} {symbols : List String}

/-- One edge is found before another: its key is expanded first, or it is the same key and its
symbol comes first. -/
def Earlier (left right : Nat × Discovery) : Prop :=
  left.1 < right.1 ∨ left.1 = right.1 ∧ left.2.symbol < right.2.symbol

/-- When a search through symbols in ascending order has ended, its edges stand in the order of
their keys, and among those of one key in the order of their symbols. -/
theorem Complete.pairwise_arrows {first : κ} {exploration : Exploration κ}
    (hcomplete : Complete step symbols first exploration) (hsymbols : symbols.Pairwise (· < ·)) :
    exploration.arrows.Pairwise Earlier := by
  rw [arrows, List.pairwise_flatMap]
  constructor
  · rintro ⟨row, number⟩ hrow
    rw [List.mem_zipIdx_iff_getElem?, Array.getElem?_toList] at hrow
    have hbound : number < exploration.found.size :=
      hcomplete.rows_eq ▸ (Array.getElem?_eq_some_iff.1 hrow).1
    obtain ⟨key, hkey⟩ := Numbering.lt_size_iff.1 hbound
    have hordered := hsymbols.sublist (hcomplete.row_of number key row hkey hrow).symbols_sublist
    rw [List.pairwise_map] at hordered ⊢
    exact hordered.imp fun hless => Or.inr ⟨rfl, hless⟩
  · have hindices : (exploration.rows.toList.zipIdx.map Prod.snd).Pairwise (· < ·) := by
      rw [List.zipIdx_map_snd]
      exact List.pairwise_lt_range'
    rw [List.pairwise_map] at hindices
    refine hindices.imp fun {left right} hless => ?_
    intro arrow harrow other hother
    obtain ⟨edge, -, rfl⟩ := List.mem_map.1 harrow
    obtain ⟨next, -, rfl⟩ := List.mem_map.1 hother
    exact Or.inl hless

variable [Std.TransOrd κ] [Std.LawfulEqOrd κ] {key : κ}

/-- New keys take the next numbers in the order of the edges that lead to them. -/
theorem unfolds_expand {found final : Numbering κ} {row : List Discovery} {source : Nat}
    (hexpand : expand step none key symbols found = .ok (row, final))
    (hsource : source < found.size) :
    Unfolds found.size (row.map fun edge => (source, edge)) final.size := by
  induction symbols generalizing found row with
  | nil =>
    cases hexpand
    exact .nil _
  | cons symbol symbols ih =>
    rcases expand_cons_eq_ok hexpand with
      ⟨-, hrest⟩ | ⟨next, target, fresh, extended, rest, -, hlocate, hrest, rfl⟩
    · exact ih hrest hsource
    · rcases locate_eq_ok hlocate with ⟨hnumber, rfl, rfl⟩ | ⟨hnew, rfl, rfl, rfl⟩
      · have htarget : target < extended.size :=
          Numbering.lt_size_iff.2 ⟨next, Numbering.number?_eq_some_iff.1 hnumber⟩
        exact .old hsource htarget (ih hrest hsource)
      · have hothers := ih hrest (Nat.lt_of_lt_of_le hsource (locate_size_le hlocate))
        rw [size_push] at hothers
        exact .new hsource rfl hothers

theorem unfolds_continueFrom {fuel : Nat} {exploration final : Exploration κ}
    (hcontinue : continueFrom step none symbols fuel exploration = .ok final)
    (hunfolds : Unfolds 1 exploration.arrows exploration.found.size) :
    Unfolds 1 final.arrows final.found.size := by
  induction fuel generalizing exploration with
  | zero =>
    cases hcontinue
    exact hunfolds
  | succ fuel ih =>
    rcases continueFrom_succ_eq_ok hcontinue with
      ⟨-, rfl⟩ | ⟨key, row, found, hkey, hexpand, hrest⟩
    · exact hunfolds
    · have hrow := unfolds_expand hexpand (Numbering.lt_size_iff.2 ⟨key, hkey⟩)
      apply ih hrest
      rw [arrows_push]
      exact hunfolds.append hrow

/-- The edges of a search unfold from its first key. -/
theorem unfolds_run {fuel : Nat} {first : κ} {final : Exploration κ}
    (hrun : run step none symbols fuel first = .ok final) :
    Unfolds 1 final.arrows final.found.size := by
  obtain ⟨⟨target, fresh, found⟩, hlocate, hcontinue⟩ := Traversal.bind_eq_ok_iff.1 hrun
  rcases locate_eq_ok hlocate with ⟨hnumber, -, -⟩ | ⟨hnew, -, -, rfl⟩
  · cases Numbering.number?_empty.symm.trans hnumber
  · refine unfolds_continueFrom hcontinue ?_
    rw [size_push]
    exact .nil 1

/-- Every key but the first one is discovered by an edge from a key before it.  Any edge that leads
to this key or to a later one comes no earlier. -/
theorem exists_discovery {fuel number : Nat} {first : κ} {final : Exploration κ}
    (hrun : run step none symbols fuel first = .ok final)
    (hcomplete : Complete step symbols first final) (hsymbols : symbols.Pairwise (· < ·))
    (hpositive : 0 < number) (hnumber : number < final.found.size) :
    ∃ source edge, (source, edge) ∈ final.arrows ∧ edge.target = number ∧ source < number ∧
      ∀ arrow ∈ final.arrows, number ≤ arrow.2.target →
        arrow = (source, edge) ∨ Earlier (source, edge) arrow := by
  obtain ⟨before, source, edge, after, harrows, htarget, hsource, hbefore⟩ :=
    (unfolds_run hrun).exists_split hpositive hnumber
  have hordered := hcomplete.pairwise_arrows hsymbols
  rw [harrows, List.pairwise_append] at hordered
  refine ⟨source, edge, by simp [harrows], htarget, hsource, fun arrow harrow hlater => ?_⟩
  rw [harrows, List.mem_append, List.mem_cons] at harrow
  rcases harrow with hearlier | rfl | hafter
  · exact absurd (hbefore arrow hearlier) (Nat.not_lt.2 hlater)
  · exact Or.inl rfl
  · exact Or.inr (List.rel_of_pairwise_cons hordered.2.1 hafter)

end Search

end RegexAutomata.Exploration
