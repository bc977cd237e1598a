import RegexAutomata.Proofs.Regex.Grammar
import RegexAutomata.Proofs.Regex.PostOrder

/-!
# Tokens that come to one tree are a phrase

No stage of reading asks whether operands and operators take turns.  But joined tokens come to at
most one tree, and they come to one only if they do take turns: every misplaced token costs a tree
that nothing can make up for.  Tokens that take turns and have balanced parentheses are a phrase.
-/

namespace RegexAutomata

namespace Token

/-- Operands and binary operators take turns.  Where an operand is expected, a group may be opened,
and after an operand it may be closed or repeated. -/
def TakesTurns : Bool → List Token → Prop
  | expecting, [] => expecting = false
  | true, token :: rest =>
    match token.role with
    | .opening => TakesTurns true rest
    | .operand => TakesTurns false rest
    | _ => False
  | false, token :: rest =>
    match token.role with
    | .closing => TakesTurns false rest
    | .operator .star => TakesTurns false rest
    | .operator _ => TakesTurns true rest
    | _ => False

abbrev Apart (tokens : List Token) : Prop :=
  tokens.IsChain fun left right => ¬ (left.endsOperand ∧ right.startsOperand)

/-- How many trees may come where an operand is expected, and how many after an operand. -/
def allowance : Bool → Int
  | true => 1
  | false => 0

theorem Apart.head {token : Token} {rest : List Token} (hapart : Apart (token :: rest))
    (hends : token.endsOperand) : ∀ next ∈ rest.head?, next.startsOperand = false := by
  intro next hnext
  obtain ⟨others, rfl⟩ := List.head?_eq_some_iff.1 hnext
  have hpair := (List.isChain_cons_cons.1 hapart).1
  rw [not_and, Bool.not_eq_true] at hpair
  exact hpair hends

/-- No more trees come than are allowed for, and so many only if the tokens take turns. -/
structure Fits (expecting : Bool) (tokens : List Token) : Prop where
  weigh_le : weigh tokens ≤ allowance expecting
  takesTurns : weigh tokens = allowance expecting → TakesTurns expecting tokens

section Fits

variable {token : Token} {rest : List Token} {before after : Bool}

/-- A token in its turn weighs what the allowance changes by. -/
theorem Fits.in_turn (hrest : Fits after rest)
    (hweight : token.weight + allowance after = allowance before)
    (hturns : TakesTurns after rest → TakesTurns before (token :: rest)) :
    Fits before (token :: rest) := by
  have hcount := hrest.weigh_le
  constructor
  · rw [weigh_cons]
    omega
  · intro hequal
    rw [weigh_cons] at hequal
    exact hturns (hrest.takesTurns (by omega))

/-- A token out of turn leaves a tree short. -/
theorem Fits.out_of_turn (hrest : Fits after rest)
    (hweight : token.weight + allowance after < allowance before) :
    Fits before (token :: rest) := by
  have hcount := hrest.weigh_le
  constructor
  · rw [weigh_cons]
    omega
  · intro hequal
    rw [weigh_cons] at hequal
    omega

/-- What follows an operand may be closed or repeated; nowhere else may this come. -/
theorem Fits.postfix_token (hrest : Fits false rest)
    (hrole : token.role = .closing ∨ token.role = .operator .star) :
    Fits before (token :: rest) := by
  have hweight : token.weight = 0 := by
    rcases hrole with hrole | hrole <;> rw [weight, hrole]
  cases before with
  | false =>
    apply hrest.in_turn
    · rw [hweight, zero_add]
    · rcases hrole with hrole | hrole <;> simp only [TakesTurns, hrole, imp_self]
  | true =>
    apply hrest.out_of_turn
    rw [hweight]
    decide

/-- A binary operator may come after an operand and nowhere else. -/
theorem Fits.binary_token (hrest : Fits true rest)
    (hrole : token.role = .operator .concat ∨ token.role = .operator .alternation) :
    Fits before (token :: rest) := by
  have hweight : token.weight = -1 := by
    rcases hrole with hrole | hrole <;> rw [weight, hrole]
  cases before with
  | false =>
    apply hrest.in_turn
    · rw [hweight]
      rfl
    · rcases hrole with hrole | hrole <;> simp only [TakesTurns, hrole, imp_self]
  | true =>
    apply hrest.out_of_turn
    rw [hweight]
    decide

end Fits

/-- Where operands stand apart, each misplaced token costs a tree that nothing makes up for. -/
theorem Apart.fits {tokens : List Token} (hapart : Apart tokens)
    (hlegible : ∀ token ∈ tokens, token.Legible) {expecting : Bool}
    (hhead : expecting = false → ∀ token ∈ tokens.head?, token.startsOperand = false) :
    Fits expecting tokens := by
  induction tokens generalizing expecting with
  | nil => cases expecting <;> exact ⟨by decide, by simp [weigh, TakesTurns, allowance]⟩
  | cons token rest ih =>
    rw [List.forall_mem_cons] at hlegible
    have hbefore : Fits true rest := ih hapart.tail hlegible.2 (by simp)
    have hafter : token.endsOperand → Fits false rest :=
      fun hends => ih hapart.tail hlegible.2 fun _ => hapart.head hends
    have hturn : expecting = false → token.role ≠ .operand ∧ token.role ≠ .opening := by
      intro hexpecting
      have hstarts : token.startsOperand = false := hhead hexpecting token rfl
      have hnot := hlegible.1.startsOperand_iff.not.1 (by simp [hstarts])
      exact not_or.1 hnot
    have hends := hlegible.1.endsOperand_iff
    cases hrole : token.role with
    | opening =>
      cases expecting with
      | false => exact absurd hrole (hturn rfl).2
      | true =>
        apply hbefore.in_turn
        · rw [weight, hrole, zero_add]
        · simp only [TakesTurns, hrole, imp_self]
    | operand =>
      cases expecting with
      | false => exact absurd hrole (hturn rfl).1
      | true =>
        apply (hafter (hends.2 (Or.inl hrole))).in_turn
        · rw [weight, hrole]
          rfl
        · simp only [TakesTurns, hrole, imp_self]
    | closing => exact (hafter (hends.2 (Or.inr (Or.inl hrole)))).postfix_token (Or.inl hrole)
    | operator operator =>
      cases operator with
      | star => exact (hafter (hends.2 (Or.inr (Or.inr hrole)))).postfix_token (Or.inr hrole)
      | concat => exact hbefore.binary_token (Or.inl hrole)
      | alternation => exact hbefore.binary_token (Or.inr hrole)

end Token

namespace Regex

open Token

/-- Tokens are a phrase for some tree. -/
def IsPhrase (level : Level) (tokens : List Token) : Prop :=
  ∃ regex, Phrase level tokens regex

/-- Tokens that end with an operand: a sequence, perhaps behind alternatives. -/
inductive Ended : List Token → Prop where
  | sequence {tokens : List Token} (hsequence : IsPhrase .sequence tokens) : Ended tokens
  | alternation {sign : Token} {before after : List Token}
      (hsign : sign.role = .operator .alternation) (hbefore : IsPhrase .alternatives before)
      (hafter : IsPhrase .sequence after) : Ended (before ++ sign :: after)

/-- Tokens after which an operand is expected: none at all, or a binary operator at last. -/
inductive Expecting : List Token → Prop where
  | start : Expecting []
  | concat {sign : Token} {tokens : List Token} (hsign : sign.role = .operator .concat)
      (htokens : Ended tokens) : Expecting (tokens ++ [sign])
  | alternation {sign : Token} {tokens : List Token} (hsign : sign.role = .operator .alternation)
      (htokens : IsPhrase .alternatives tokens) : Expecting (tokens ++ [sign])

/-- Tokens after which an operand is expected, so many groups being open. -/
inductive Unfinished : Nat → List Token → Prop where
  | outside {tokens : List Token} (htokens : Expecting tokens) : Unfinished 0 tokens
  | inside {depth : Nat} {opening : Token} {outer tokens : List Token}
      (houter : Unfinished depth outer) (hopening : opening.role = .opening)
      (htokens : Expecting tokens) : Unfinished (depth + 1) (outer ++ opening :: tokens)

variable {depth : Nat} {sign token : Token} {tokens operand before : List Token}

theorem Ended.isPhrase (hended : Ended tokens) : IsPhrase .alternatives tokens := by
  cases hended with
  | sequence hsequence =>
    obtain ⟨regex, hphrase⟩ := hsequence
    exact ⟨regex, .sequence hphrase⟩
  | alternation hsign hbefore hafter =>
    obtain ⟨left, hleft⟩ := hbefore
    obtain ⟨right, hright⟩ := hafter
    exact ⟨_, .alternation hsign hleft hright⟩

/-- An operand is what is expected. -/
theorem Expecting.append (hexpecting : Expecting tokens) (hoperand : IsPhrase .repetition operand) :
    Ended (tokens ++ operand) := by
  obtain ⟨regex, hphrase⟩ := hoperand
  cases hexpecting with
  | start => exact .sequence ⟨regex, .repetition hphrase⟩
  | concat hsign hended =>
    rw [List.append_assoc, List.singleton_append]
    cases hended with
    | sequence hsequence =>
      obtain ⟨left, hleft⟩ := hsequence
      exact .sequence ⟨_, .concat hsign hleft hphrase⟩
    | alternation hbar hbefore hafter =>
      obtain ⟨left, hleft⟩ := hafter
      rw [List.append_assoc, List.cons_append]
      exact .alternation hbar hbefore ⟨_, .concat hsign hleft hphrase⟩
  | alternation hsign hbefore =>
    rw [List.append_assoc, List.singleton_append]
    exact .alternation hsign hbefore ⟨regex, .repetition hphrase⟩

namespace Unfinished

theorem finish (hunfinished : Unfinished 0 tokens) (hoperand : IsPhrase .repetition operand) :
    IsPhrase .alternatives (tokens ++ operand) := by
  cases hunfinished with
  | outside hexpecting => exact (hexpecting.append hoperand).isPhrase

/-- A binary operator behind an operand lets another operand be expected. -/
theorem binary (hunfinished : Unfinished depth tokens) (hoperand : IsPhrase .repetition operand)
    (hsign : sign.role = .operator .concat ∨ sign.role = .operator .alternation) :
    Unfinished depth (tokens ++ operand ++ [sign]) := by
  have hexpecting : ∀ {inner : List Token}, Expecting inner →
      Expecting (inner ++ operand ++ [sign]) := by
    intro inner hinner
    have hended := hinner.append hoperand
    rcases hsign with hconcat | halternation
    · exact .concat hconcat hended
    · exact .alternation halternation hended.isPhrase
  cases hunfinished with
  | outside htokens => exact .outside (hexpecting htokens)
  | inside houter hopening htokens =>
    have hinside := houter.inside hopening (hexpecting htokens)
    simpa only [List.append_assoc, List.cons_append] using hinside

/-- A closed group is an operand of what is around it. -/
theorem close (hunfinished : Unfinished (depth + 1) tokens)
    (hoperand : IsPhrase .repetition operand) (hclosing : sign.role = .closing) :
    ∃ outer group, Unfinished depth outer ∧ IsPhrase .repetition group ∧
      tokens ++ operand ++ [sign] = outer ++ group := by
  cases hunfinished with
  | @inside _ opening outer inner houter hopening hexpecting =>
    obtain ⟨regex, hphrase⟩ := (hexpecting.append hoperand).isPhrase
    refine ⟨outer, _, houter, ⟨regex, .atom (.group hopening hclosing hphrase)⟩, ?_⟩
    simp only [List.append_assoc, List.cons_append]

end Unfinished

/-- Tokens that take turns and close every group make a phrase of what is unfinished before them. -/
theorem isPhrase_of_takesTurns (hcloses : Closes depth tokens) (hbefore : Unfinished depth before) :
    (TakesTurns true tokens → IsPhrase .alternatives (before ++ tokens)) ∧
      (TakesTurns false tokens → ∀ operand, IsPhrase .repetition operand →
        IsPhrase .alternatives (before ++ operand ++ tokens)) := by
  induction tokens generalizing depth before with
  | nil =>
    cases hcloses
    refine ⟨fun hturns => (by cases hturns), fun _ operand hoperand => ?_⟩
    rw [List.append_nil]
    exact hbefore.finish hoperand
  | cons token rest ih =>
    rw [Closes] at hcloses
    constructor
    · intro hturns
      rw [TakesTurns] at hturns
      cases hrole : token.role with
      | opening =>
        simp only [hrole] at hcloses hturns
        have hrest := (ih hcloses (hbefore.inside hrole .start)).1 hturns
        rwa [List.append_assoc, List.singleton_append] at hrest
      | operand =>
        simp only [hrole] at hcloses hturns
        have hoperand : IsPhrase .repetition [token] := ⟨_, .atom (.operand hrole)⟩
        have hrest := (ih hcloses hbefore).2 hturns [token] hoperand
        rwa [List.append_assoc] at hrest
      | closing => simp [hrole] at hturns
      | operator operator => simp [hrole] at hturns
    · intro hturns operand hoperand
      rw [TakesTurns] at hturns
      cases hrole : token.role with
      | opening => simp [hrole] at hturns
      | operand => simp [hrole] at hturns
      | closing =>
        simp only [hrole] at hcloses hturns
        obtain ⟨below, rfl, hbelow⟩ := hcloses
        obtain ⟨outer, group, houter, hgroup, hequal⟩ := hbefore.close hoperand hrole
        have hrest := (ih hbelow houter).2 hturns group hgroup
        rw [← hequal] at hrest
        rwa [List.append_assoc, List.singleton_append] at hrest
      | operator operator =>
        cases operator with
        | star =>
          simp only [hrole] at hcloses hturns
          obtain ⟨regex, hphrase⟩ := hoperand
          have hrest := (ih hcloses hbefore).2 hturns (operand ++ [token])
            ⟨_, .star hrole hphrase⟩
          simpa only [List.append_assoc, List.singleton_append] using hrest
        | concat =>
          simp only [hrole] at hcloses hturns
          have hrest := (ih hcloses (hbefore.binary hoperand (Or.inl hrole))).1 hturns
          rwa [List.append_assoc, List.singleton_append] at hrest
        | alternation =>
          simp only [hrole] at hcloses hturns
          have hrest := (ih hcloses (hbefore.binary hoperand (Or.inr hrole))).1 hturns
          rwa [List.append_assoc, List.singleton_append] at hrest

end Regex
end RegexAutomata
