import Mathlib.Data.Finset.Powerset
import Mathlib.Data.List.Sort
import RegexAutomata.Collection.Ascending

/-!
# How many ascending lists there are

An ascending list is determined by its members.  So there are no more ascending lists over given
members than there are sets of these members.
-/

namespace RegexAutomata.Ascending

variable {α : Type} [LT α] [DecidableLT α] [DecidableEq α]

theorem length_insert {member : α} {set : List α} (hnew : member ∉ set) :
    (insert member set).length = set.length + 1 := by
  induction set with
  | nil => rfl
  | cons head rest ih =>
    rw [List.mem_cons, not_or] at hnew
    unfold insert
    split
    · rfl
    · rw [if_neg hnew.1, List.length_cons, ih hnew.2, List.length_cons]

/-- Of two sets without a common member the sizes add up. -/
theorem length_union {left right : List α} (hleft : left.Nodup)
    (hnew : ∀ member ∈ left, member ∉ right) :
    (union left right).length = left.length + right.length := by
  induction left with
  | nil => simp [union]
  | cons head rest ih =>
    rw [List.nodup_cons] at hleft
    rw [List.forall_mem_cons] at hnew
    have hstep : union (head :: rest) right = insert head (union rest right) := rfl
    have habsent : head ∉ union rest right := by
      rw [mem_union, not_or]
      exact ⟨hleft.1, hnew.1⟩
    rw [hstep, length_insert habsent, ih hleft.2 hnew.2, List.length_cons]
    omega

theorem nodup_of_pairwise {set : List Int} (hset : set.Pairwise (· < ·)) : set.Nodup :=
  hset.imp fun hless => Int.ne_of_lt hless

/-- Different ascending lists have different members. -/
theorem toFinset_injOn {left right : List Int} (hleft : left.Pairwise (· < ·))
    (hright : right.Pairwise (· < ·)) (hsame : left.toFinset = right.toFinset) : left = right := by
  apply hleft.eq_of_mem_iff hright
  intro member
  rw [← List.mem_toFinset, hsame, List.mem_toFinset]

/-- There are no more sets of members of a finite whole than it has subsets. -/
theorem length_le_two_pow {sets : List (List Int)} {whole : Finset Int} (hsets : sets.Nodup)
    (hascending : ∀ set ∈ sets, set.Pairwise (· < ·))
    (hwithin : ∀ set ∈ sets, ∀ member ∈ set, member ∈ whole) :
    sets.length ≤ 2 ^ whole.card := by
  have hnodup : (sets.map List.toFinset).Nodup := by
    apply List.Nodup.map_on _ hsets
    intro left hleft right hright hsame
    exact toFinset_injOn (hascending left hleft) (hascending right hright) hsame
  have hsubset : (sets.map List.toFinset).toFinset ⊆ whole.powerset := by
    intro members hmembers
    obtain ⟨set, hset, rfl⟩ := List.mem_map.1 (List.mem_toFinset.1 hmembers)
    rw [Finset.mem_powerset]
    intro member hmember
    exact hwithin set hset member (List.mem_toFinset.1 hmember)
  calc sets.length
      = (sets.map List.toFinset).toFinset.card := by
        rw [List.toFinset_card_of_nodup hnodup, List.length_map]
    _ ≤ whole.powerset.card := Finset.card_le_card hsubset
    _ = 2 ^ whole.card := Finset.card_powerset whole

end RegexAutomata.Ascending
