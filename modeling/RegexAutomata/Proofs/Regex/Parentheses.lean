import Mathlib.Data.List.Basic
import Mathlib.Data.List.Chain
import Mathlib.Order.Bounds.Defs

/-!
# Parentheses and their partners

A text is balanced if its parentheses come in pairs, each around a balanced text.  Two parentheses
are partners if the text between them is balanced.  A text that closes too much has a first right
parenthesis without partner, and what stands before it is balanced; a text that closes too little
has a last left parenthesis without partner, and what stands behind it is balanced.
-/

namespace RegexAutomata.Regex

/-- The parentheses of a text come in pairs. -/
inductive Balanced : List Char → Prop where
  | nil : Balanced []
  | plain {character : Char} {rest : List Char} (hopening : character ≠ '(')
      (hclosing : character ≠ ')') (hrest : Balanced rest) : Balanced (character :: rest)
  | group {inner rest : List Char} (hinner : Balanced inner) (hrest : Balanced rest) :
      Balanced ('(' :: (inner ++ ')' :: rest))

/-- Some prefix of the text closes more groups than it opens. -/
def Overclosed (text : List Char) : Prop :=
  ∃ before, before <+: text ∧ before.count '(' < before.count ')'

/-- There is a right parenthesis at the index that is the partner of no left one. -/
def UnmatchedClose (text : List Char) (index : Nat) : Prop :=
  ∃ before after, text = before ++ ')' :: after ∧ before.length = index ∧
    ∀ outer inner, before = outer ++ '(' :: inner → ¬ Balanced inner

/-- There is a left parenthesis at the index that is the partner of no right one. -/
def UnmatchedOpen (text : List Char) (index : Nat) : Prop :=
  ∃ before after, text = before ++ '(' :: after ∧ before.length = index ∧
    ∀ inner outer, after = inner ++ ')' :: outer → ¬ Balanced inner

/-- The text closes only what is open, and groups are open from these indices on, the inmost one
first. -/
inductive Open : List Char → List Nat → Prop where
  | outside {text : List Char} (htext : Balanced text) : Open text []
  | inside {before inner : List Char} {indices : List Nat} (hbefore : Open before indices)
      (hinner : Balanced inner) : Open (before ++ '(' :: inner) (before.length :: indices)

variable {before after inner left right text : List Char} {indices : List Nat} {index : Nat}

/-- Of two characters in a text, either is before the other one, or they are the same. -/
theorem split_cases {sign other : Char}
    (htext : left ++ sign :: right = before ++ other :: after) :
    (∃ between, left = before ++ other :: between ∧ after = between ++ sign :: right) ∨
      (left = before ∧ sign = other ∧ right = after) ∨
      ∃ between, before = left ++ sign :: between ∧ right = between ++ other :: after := by
  rcases List.append_eq_append_iff.1 htext with ⟨between, hbefore, hsign⟩ | ⟨between, hleft, hother⟩
  · cases between with
    | nil =>
      obtain ⟨rfl, rfl⟩ := List.cons.inj hsign
      exact Or.inr (Or.inl ⟨by rw [hbefore, List.append_nil], rfl, rfl⟩)
    | cons first between =>
      obtain ⟨rfl, rfl⟩ := List.cons.inj hsign
      exact Or.inr (Or.inr ⟨between, hbefore, rfl⟩)
  · cases between with
    | nil =>
      obtain ⟨rfl, rfl⟩ := List.cons.inj hother
      exact Or.inr (Or.inl ⟨by rw [hleft, List.append_nil], rfl, rfl⟩)
    | cons first between =>
      obtain ⟨rfl, rfl⟩ := List.cons.inj hother
      exact Or.inl ⟨between, hleft, rfl⟩

/-- A prefix of two texts in a row ends in the first or in the second of them. -/
theorem prefix_append_cases (hbefore : before <+: left ++ right) :
    before <+: left ∨ ∃ further, further <+: right ∧ before = left ++ further := by
  rcases List.prefix_or_prefix_of_prefix hbefore (List.prefix_append left right) with
    hwithin | ⟨further, rfl⟩
  · exact Or.inl hwithin
  · exact Or.inr ⟨further, (List.prefix_append_right_inj left).1 hbefore, rfl⟩

namespace Balanced

theorem append (hleft : Balanced left) (hright : Balanced right) : Balanced (left ++ right) := by
  induction hleft with
  | nil => exact hright
  | plain hopening hclosing _ ih => exact .plain hopening hclosing ih
  | group hinner _ _ ih =>
    rw [List.cons_append, List.append_assoc, List.cons_append]
    exact .group hinner ih

theorem count_eq (hbalanced : Balanced text) : text.count '(' = text.count ')' := by
  induction hbalanced with
  | nil => rfl
  | plain hopening hclosing _ ih =>
    rwa [List.count_cons_of_ne hopening, List.count_cons_of_ne hclosing]
  | group _ _ ihInner ihRest =>
    simp [ihInner, ihRest]
    omega

/-- No prefix of a balanced text closes more groups than it opens. -/
theorem count_le (hbalanced : Balanced text) (hbefore : before <+: text) :
    before.count ')' ≤ before.count '(' := by
  induction hbalanced generalizing before with
  | nil =>
    rw [List.prefix_nil.1 hbefore]
    exact le_rfl
  | plain hopening hclosing _ ih =>
    rcases List.prefix_cons_iff.1 hbefore with rfl | ⟨further, rfl, hfurther⟩
    · exact le_rfl
    · rw [List.count_cons_of_ne hopening, List.count_cons_of_ne hclosing]
      exact ih hfurther
  | group hinner _ ihInner ihRest =>
    rcases List.prefix_cons_iff.1 hbefore with rfl | ⟨further, rfl, hfurther⟩
    · exact le_rfl
    · rcases prefix_append_cases hfurther with hwithin | ⟨behind, hbehind, rfl⟩
      · have hcount := ihInner hwithin
        simp
        omega
      · have hcount := hinner.count_eq
        rcases List.prefix_cons_iff.1 hbehind with rfl | ⟨last, rfl, hlast⟩
        · simp
          omega
        · have hlastCount := ihRest hlast
          simp
          omega

/-- Every right parenthesis of a balanced text has a partner. -/
theorem exists_opening (hbalanced : Balanced (before ++ ')' :: after)) :
    ∃ outer inner, before = outer ++ '(' :: inner ∧ Balanced inner := by
  generalize htext : before ++ ')' :: after = text at hbalanced
  induction hbalanced generalizing before after with
  | nil => simp at htext
  | plain hopening hclosing _ ih =>
    rcases List.append_eq_cons_iff.1 htext with ⟨-, hfirst⟩ | ⟨further, rfl, hrest⟩
    · exact absurd (List.cons.inj hfirst).1.symm hclosing
    · obtain ⟨outer, inner, rfl, hinner⟩ := ih hrest.symm
      exact ⟨_ :: outer, inner, rfl, hinner⟩
  | @group body rest hbody _ ihBody ihRest =>
    rcases List.append_eq_cons_iff.1 htext with ⟨-, hfirst⟩ | ⟨further, rfl, hrest⟩
    · exact absurd (List.cons.inj hfirst).1 (by decide)
    · rcases split_cases hrest with
        ⟨between, hwithin, -⟩ | ⟨rfl, -, -⟩ | ⟨between, rfl, hbehind⟩
      · obtain ⟨outer, inner, rfl, hinner⟩ := ihBody hwithin.symm
        exact ⟨'(' :: outer, inner, rfl, hinner⟩
      · exact ⟨[], body, rfl, hbody⟩
      · obtain ⟨outer, inner, rfl, hinner⟩ := ihRest hbehind.symm
        exact ⟨'(' :: (body ++ ')' :: outer), inner, by simp, hinner⟩

/-- Every left parenthesis of a balanced text has a partner. -/
theorem exists_closing (hbalanced : Balanced (before ++ '(' :: after)) :
    ∃ inner outer, after = inner ++ ')' :: outer ∧ Balanced inner := by
  generalize htext : before ++ '(' :: after = text at hbalanced
  induction hbalanced generalizing before after with
  | nil => simp at htext
  | plain hopening hclosing _ ih =>
    rcases List.append_eq_cons_iff.1 htext with ⟨-, hfirst⟩ | ⟨further, rfl, hrest⟩
    · exact absurd (List.cons.inj hfirst).1.symm hopening
    · exact ih hrest.symm
  | @group body rest hbody _ ihBody ihRest =>
    rcases List.append_eq_cons_iff.1 htext with ⟨-, hfirst⟩ | ⟨further, rfl, hrest⟩
    · exact ⟨body, rest, (List.cons.inj hfirst).2, hbody⟩
    · rcases split_cases hrest with
        ⟨between, hwithin, rfl⟩ | ⟨-, hnever, -⟩ | ⟨between, rfl, hbehind⟩
      · obtain ⟨inner, outer, rfl, hinner⟩ := ihBody hwithin.symm
        exact ⟨inner, outer ++ ')' :: rest, by simp, hinner⟩
      · exact absurd hnever (by decide)
      · exact ihRest hbehind.symm

theorem not_overclosed (hbalanced : Balanced text) : ¬ Overclosed text := by
  rintro ⟨before, hbefore, hcount⟩
  exact absurd (hbalanced.count_le hbefore) hcount.not_ge

theorem not_unmatchedOpen (hbalanced : Balanced text) (index : Nat) :
    ¬ UnmatchedOpen text index := by
  rintro ⟨before, after, rfl, -, hunmatched⟩
  obtain ⟨inner, outer, hafter, hinner⟩ := hbalanced.exists_closing
  exact hunmatched inner outer hafter hinner

/-- What closes more than a balanced text opens, closes too much. -/
theorem overclosed (hbefore : Balanced before) (after : List Char) :
    Overclosed (before ++ ')' :: after) := by
  refine ⟨before ++ [')'], ⟨after, by simp⟩, ?_⟩
  have hcount := hbefore.count_eq
  simp
  omega

/-- The first right parenthesis without partner is the one behind a balanced text. -/
theorem isLeast_unmatchedClose (hbefore : Balanced before) (after : List Char) :
    IsLeast {index | UnmatchedClose (before ++ ')' :: after) index} before.length := by
  constructor
  · refine ⟨before, after, rfl, rfl, fun outer inner hsplit hinner => ?_⟩
    have hwhole := hbefore.count_eq
    have hinside := hinner.count_eq
    have houter := hbefore.count_le ⟨_, hsplit.symm⟩
    rw [hsplit] at hwhole
    simp at hwhole
    omega
  · rintro index ⟨other, rest, htext, rfl, hunmatched⟩
    rcases split_cases htext with ⟨between, rfl, -⟩ | ⟨rfl, -, -⟩ | ⟨between, rfl, -⟩
    · obtain ⟨outer, inner, hother, hinner⟩ := hbefore.exists_opening
      exact absurd hinner (hunmatched outer inner hother)
    · exact le_rfl
    · simp

/-- The last left parenthesis without partner is the one before a balanced text. -/
theorem isGreatest_unmatchedOpen (hinner : Balanced inner) (before : List Char) :
    IsGreatest {index | UnmatchedOpen (before ++ '(' :: inner) index} before.length := by
  constructor
  · refine ⟨before, inner, rfl, rfl, fun body outer hsplit hbody => ?_⟩
    have hover := hbody.overclosed outer
    exact hinner.not_overclosed (hsplit ▸ hover)
  · rintro index ⟨other, rest, htext, rfl, hunmatched⟩
    rcases split_cases htext with ⟨between, rfl, -⟩ | ⟨rfl, -, -⟩ | ⟨between, rfl, rfl⟩
    · simp
    · exact le_rfl
    · obtain ⟨body, outer, hrest, hbody⟩ := hinner.exists_closing
      exact absurd hbody (hunmatched body outer hrest)

/-- Without other characters, and without two groups side by side, there is one nest of groups. -/
theorem exists_eq_replicate (hbalanced : Balanced text)
    (honly : ∀ character ∈ text, character = '(' ∨ character = ')')
    (hapart : text.IsChain fun first second => ¬ (first = ')' ∧ second = '(')) :
    ∃ depth, text = List.replicate depth '(' ++ List.replicate depth ')' := by
  induction hbalanced with
  | nil => exact ⟨0, rfl⟩
  | plain hopening hclosing _ _ =>
    rcases honly _ List.mem_cons_self with hfirst | hfirst
    · exact absurd hfirst hopening
    · exact absurd hfirst hclosing
  | @group body rest _ hrest ihBody _ =>
    rw [List.forall_mem_cons, List.forall_mem_append, List.forall_mem_cons] at honly
    have hparts := List.isChain_append.1 hapart.tail
    have hlast : rest = [] := by
      cases hrest with
      | nil => rfl
      | plain hopening hclosing _ =>
        rcases honly.2.2.2 _ List.mem_cons_self with hfirst | hfirst
        · exact absurd hfirst hopening
        · exact absurd hfirst hclosing
      | group _ _ => exact absurd ⟨rfl, rfl⟩ (List.isChain_cons_cons.1 hparts.2.1).1
    obtain ⟨depth, rfl⟩ := ihBody honly.2.1 hparts.1
    refine ⟨depth + 1, ?_⟩
    rw [hlast, List.append_assoc, ← List.replicate_succ', ← List.cons_append,
      ← List.replicate_succ]

end Balanced

namespace Open

theorem append (hopen : Open text indices) (hafter : Balanced after) :
    Open (text ++ after) indices := by
  cases hopen with
  | outside htext => exact .outside (htext.append hafter)
  | inside hbefore hinner =>
    rw [List.append_assoc, List.cons_append]
    exact .inside hbefore (hinner.append hafter)

theorem opening (hopen : Open text indices) : Open (text ++ ['(']) (text.length :: indices) :=
  .inside hopen .nil

theorem closing (hopen : Open text (index :: indices)) : Open (text ++ [')']) indices := by
  cases hopen with
  | inside hbefore hinner =>
    rw [List.append_assoc, List.cons_append]
    exact hbefore.append (.group hinner .nil)

theorem balanced (hopen : Open text []) : Balanced text := by
  cases hopen with
  | outside htext => exact htext

theorem count_le (hopen : Open text indices) (hbefore : before <+: text) :
    before.count ')' ≤ before.count '(' := by
  induction hopen generalizing before with
  | outside htext => exact htext.count_le hbefore
  | @inside outer inner indices _ hinner ih =>
    rcases prefix_append_cases hbefore with hwithin | ⟨further, hfurther, rfl⟩
    · exact ih hwithin
    · have houter := ih (List.prefix_refl outer)
      rcases List.prefix_cons_iff.1 hfurther with rfl | ⟨last, rfl, hlast⟩
      · simpa using houter
      · have hcount := hinner.count_le hlast
        simp
        omega

theorem not_overclosed (hopen : Open text indices) : ¬ Overclosed text := by
  rintro ⟨before, hbefore, hcount⟩
  exact absurd (hopen.count_le hbefore) hcount.not_ge

/-- Every right parenthesis has a partner, although not every left one has. -/
theorem exists_opening (hopen : Open (before ++ ')' :: after) indices) :
    ∃ outer inner, before = outer ++ '(' :: inner ∧ Balanced inner := by
  generalize htext : before ++ ')' :: after = text at hopen
  induction hopen generalizing before after with
  | outside hbalanced =>
    subst htext
    exact hbalanced.exists_opening
  | @inside first second _ _ hsecond ih =>
    rcases split_cases htext with ⟨between, rfl, rfl⟩ | ⟨-, hnever, -⟩ | ⟨between, rfl, -⟩
    · obtain ⟨outer, inner, rfl, hinner⟩ := hsecond.exists_opening
      exact ⟨first ++ '(' :: outer, inner, by simp, hinner⟩
    · exact absurd hnever (by decide)
    · exact ih rfl

theorem not_unmatchedClose (hopen : Open text indices) (index : Nat) :
    ¬ UnmatchedClose text index := by
  rintro ⟨before, after, rfl, -, hunmatched⟩
  obtain ⟨outer, inner, hbefore, hinner⟩ := hopen.exists_opening
  exact hunmatched outer inner hbefore hinner

end Open

end RegexAutomata.Regex
