/-!
# Ascending lists

A finite set of state numbers, positions or symbols is kept as the strictly ascending list of its
members, so that equal sets are equal lists.  Membership after each operation is what it is for
sets.
-/

namespace RegexAutomata.Ascending

variable {α : Type} [LT α] [DecidableLT α] [DecidableEq α]

/-- Puts a member at its place; a member that is there already stays alone. -/
def insert (member : α) : List α → List α
  | [] => [member]
  | head :: rest =>
    if member < head then member :: head :: rest
    else if member = head then head :: rest
    else head :: insert member rest

def ofList (members : List α) : List α :=
  members.foldr insert []

/-- Adds all members of the left list to the right set. -/
def union (left right : List α) : List α :=
  left.foldr insert right

def unions (sets : List (List α)) : List α :=
  sets.foldr union []

/-- A list in ascending order; what is there more than once stays so. -/
def sorted {β : Type} [LE β] [DecidableLE β] (members : List β) : List β :=
  members.mergeSort (· ≤ ·)

/-- Only the new member joins the set. -/
@[simp]
theorem mem_insert {member other : α} {set : List α} :
    other ∈ insert member set ↔ other = member ∨ other ∈ set := by
  induction set with
  | nil => simp [insert]
  | cons head rest ih =>
    unfold insert
    split
    · simp
    · split
      · next hequal => subst hequal; simp
      · simp only [List.mem_cons, ih]
        exact or_left_comm

@[simp]
theorem mem_union {other : α} {left right : List α} :
    other ∈ union left right ↔ other ∈ left ∨ other ∈ right := by
  induction left with
  | nil => simp [union]
  | cons head rest ih =>
    have hstep : union (head :: rest) right = insert head (union rest right) := rfl
    rw [hstep, mem_insert, ih, List.mem_cons, or_assoc]

theorem union_eq_nil_iff {left right : List α} :
    union left right = [] ↔ left = [] ∧ right = [] := by
  simp only [List.eq_nil_iff_forall_not_mem, mem_union, not_or, forall_and]

@[simp]
theorem mem_ofList {other : α} {members : List α} :
    other ∈ ofList members ↔ other ∈ members := by
  have hunion : ofList members = union members [] := rfl
  rw [hunion, mem_union]
  simp

@[simp]
theorem mem_unions {other : α} {sets : List (List α)} :
    other ∈ unions sets ↔ ∃ set ∈ sets, other ∈ set := by
  induction sets with
  | nil => simp [unions]
  | cons head rest ih =>
    have hstep : unions (head :: rest) = union head (unions rest) := rfl
    simp [hstep, ih]

section Order

variable [LE α] [Std.IsLinearOrder α] [Std.LawfulOrderLT α]

/-- A set stays in ascending order when a member is put at its place. -/
theorem pairwise_insert {member : α} {set : List α} (hset : set.Pairwise (· < ·)) :
    (insert member set).Pairwise (· < ·) := by
  induction set with
  | nil => simp [insert]
  | cons head rest ih =>
    have hparts := List.pairwise_cons.1 hset
    unfold insert
    split
    · next hless =>
      refine List.pairwise_cons.2 ⟨fun other hother => ?_, hset⟩
      rcases List.mem_cons.1 hother with rfl | hrest
      · exact hless
      · exact Std.lt_trans hless (hparts.1 other hrest)
    · next hnotless =>
      split
      · exact hset
      · next hdifferent =>
        have hgreater : head < member := by
          rcases Std.lt_trichotomy member head with hless | hequal | hgreater
          · exact absurd hless hnotless
          · exact absurd hequal hdifferent
          · exact hgreater
        refine List.pairwise_cons.2 ⟨fun other hother => ?_, ih hparts.2⟩
        rcases mem_insert.1 hother with rfl | hrest
        · exact hgreater
        · exact hparts.1 other hrest

theorem pairwise_union {left right : List α} (hright : right.Pairwise (· < ·)) :
    (union left right).Pairwise (· < ·) := by
  induction left with
  | nil => exact hright
  | cons head rest ih => exact pairwise_insert ih

/-- The members of a set stand in strictly ascending order, so none stands there twice. -/
theorem pairwise_ofList (members : List α) : (ofList members).Pairwise (· < ·) :=
  pairwise_union List.Pairwise.nil

theorem pairwise_unions (sets : List (List α)) : (unions sets).Pairwise (· < ·) := by
  induction sets with
  | nil => exact List.Pairwise.nil
  | cons head rest ih => exact pairwise_union ih

end Order

end RegexAutomata.Ascending
