import RegexAutomata.Proofs.Regex.Token

/-!
# The shortest completion of a row of tokens

A row of tokens lacks a concatenation where two operands abut.  Joining puts in one for each such
place and nothing else, so no shorter row will do, and a joined row lacks nothing.  The rule asks
about neighbours only.  What it comes to for whole rows is that no two literals are left without a
binary operator between them, whatever groups and stars there are in between.
-/

namespace RegexAutomata.Token

/-- An operand may end with the left token, and the next one may start with the right token. -/
def Abuts (left right : Token) : Prop :=
  (left.isLiteral ∨ left.text = ")" ∨ left.text = "*") ∧ (right.isLiteral ∨ right.text = "(")

/-- No token abuts on the next one. -/
def Separated (row : List Token) : Prop :=
  row.IsChain fun left right => ¬ left.Abuts right

/-- The written tokens of the row are the given ones, and no concatenation is missing. -/
structure Completes (row tokens : List Token) : Prop where
  written : row.filter (fun token => !token.implicit) = tokens
  separated : Separated row

/-- The token has a meaning in a written regular expression. -/
def IsReadable (token : Token) : Prop :=
  token.isLiteral ∨ token.text ∈ ["(", ")", "|", "*", concatSign]

variable {token left right : Token} {tokens row : List Token}

theorem abuts_iff : left.Abuts right ↔ left.endsOperand ∧ right.startsOperand := by
  simp [Abuts, endsOperand, startsOperand, or_assoc]

section Gap

theorem gap_of_abuts (habuts : left.Abuts right) :
    gap left right = [{ text := concatSign, position := right.position, implicit := true }] := by
  rw [abuts_iff] at habuts
  rw [gap, habuts.1, habuts.2]
  rfl

theorem gap_of_not_abuts (hapart : ¬ left.Abuts right) : gap left right = [] := by
  rw [abuts_iff, ← Bool.and_eq_true] at hapart
  rw [gap, if_neg hapart]

theorem separated_joined (tokens : List Token) : Separated (joined tokens) := by
  have hchain := isChain_joined tokens
  simp only [← abuts_iff] at hchain
  exact hchain

/-- Nothing is put into a row in which nothing is missing. -/
theorem joined_eq_self (hseparated : Separated row) : joined row = row := by
  induction row with
  | nil => rfl
  | cons token rest ih =>
    cases rest with
    | nil => rfl
    | cons next rest =>
      obtain ⟨hapart, hrest⟩ := List.isChain_cons_cons.1 hseparated
      rw [joined_cons_cons, gap_of_not_abuts hapart, List.nil_append, ih hrest]

end Gap

section Place

/-- What is put in stands between two tokens that abut, at the place of the right one. -/
theorem neighbours_of_implicit (hwritten : ∀ token ∈ tokens, token.implicit = false)
    {before after : List Token} (hrow : joined tokens = before ++ token :: after)
    (himplicit : token.implicit = true) :
    ∃ front left right rest, before = front ++ [left] ∧ after = right :: rest ∧
      left.Abuts right ∧
      token = { text := concatSign, position := right.position, implicit := true } := by
  induction tokens generalizing before with
  | nil => simp [joined] at hrow
  | cons first others ih =>
    rw [List.forall_mem_cons] at hwritten
    have hfirst : first ≠ token := by
      rintro rfl
      exact Bool.false_ne_true (hwritten.1.symm.trans himplicit)
    cases others with
    | nil =>
      have hmem : token ∈ joined [first] := by
        rw [hrow]
        exact List.mem_append_right _ List.mem_cons_self
      exact absurd (List.mem_singleton.1 hmem).symm hfirst
    | cons next rest =>
      rw [joined_cons_cons] at hrow
      obtain ⟨rfl, hfound⟩ | ⟨front, rfl, hfound⟩ := List.cons_eq_append_iff.1 hrow
      · exact absurd (List.cons.inj hfound).1.symm hfirst
      by_cases habuts : first.Abuts next
      · rw [gap_of_abuts habuts, List.singleton_append] at hfound
        obtain ⟨rfl, hhere⟩ | ⟨front, rfl, hlater⟩ := List.cons_eq_append_iff.1 hfound
        · -- the token is the one that is put in right after the first one
          obtain ⟨rfl, rfl⟩ := List.cons.inj hhere
          obtain ⟨tail, htail⟩ := exists_joined_eq_cons next rest
          exact ⟨[], first, next, tail, rfl, htail, habuts, rfl⟩
        · obtain ⟨front, left, right, others, rfl, hafter⟩ := ih hwritten.2 hlater
          exact ⟨first :: _ :: front, left, right, others, rfl, hafter⟩
      · rw [gap_of_not_abuts habuts, List.nil_append] at hfound
        obtain ⟨front, left, right, others, rfl, hafter⟩ := ih hwritten.2 hfound
        exact ⟨first :: front, left, right, others, rfl, hafter⟩

end Place

section Shortest

/-- Between two written tokens that abut, a row in which nothing is missing has at least one
more. -/
theorem length_gap_le {between after : List Token}
    (hseparated : Separated (left :: (between ++ right :: after))) :
    (gap left right).length ≤ between.length := by
  by_cases habuts : left.Abuts right
  · cases between with
    | nil => exact absurd habuts (List.isChain_cons_cons.1 hseparated).1
    | cons token between =>
      rw [gap_of_abuts habuts, List.length_cons, List.length_cons]
      exact Nat.succ_le_succ (Nat.zero_le _)
  · rw [gap_of_not_abuts habuts]
    exact Nat.zero_le _

theorem length_joined_cons_le {others : List Token}
    (hwritten : others.filter (fun token => !token.implicit) = tokens)
    (hseparated : Separated (token :: others)) :
    (joined (token :: tokens)).length ≤ (token :: others).length := by
  induction tokens generalizing token others with
  | nil => exact Nat.succ_le_succ (Nat.zero_le _)
  | cons next rest ih =>
    obtain ⟨between, after, rfl, -, -, hafter⟩ := List.filter_eq_cons_iff.1 hwritten
    have hlater : Separated (next :: after) :=
      hseparated.suffix (List.suffix_append (token :: between) (next :: after))
    have hgap := length_gap_le hseparated
    have hrest := ih hafter hlater
    rw [joined_cons_cons, List.length_cons, List.length_append, List.length_cons,
      List.length_append]
    omega

/-- No completion is shorter than the joined row. -/
theorem Completes.length_le (hcompletes : Completes row tokens) :
    (joined tokens).length ≤ row.length := by
  cases tokens with
  | nil => exact Nat.zero_le _
  | cons token rest =>
    obtain ⟨front, others, rfl, -, -, hothers⟩ := List.filter_eq_cons_iff.1 hcompletes.written
    have hlater : Separated (token :: others) :=
      hcompletes.separated.suffix (List.suffix_append front _)
    rw [List.length_append]
    exact (length_joined_cons_le hothers hlater).trans (Nat.le_add_left _ _)

end Shortest

section Between

/-- From the end of an operand on, groups and stars only end operands again until there is a binary
operator. -/
theorem exists_operator_of_separated {between after : List Token}
    (hleft : left.isLiteral ∨ left.text = ")" ∨ left.text = "*") (hright : right.isLiteral)
    (hreadable : ∀ token ∈ between, token.IsReadable)
    (hseparated : Separated (left :: (between ++ right :: after))) :
    ∃ token ∈ between, token.text = "|" ∨ token.text = concatSign := by
  induction between generalizing left with
  | nil => exact absurd ⟨hleft, Or.inl hright⟩ (List.isChain_cons_cons.1 hseparated).1
  | cons token between ih =>
    rw [List.forall_mem_cons] at hreadable
    obtain ⟨hapart, hrest⟩ := List.isChain_cons_cons.1 hseparated
    have hstarts : ¬ (token.isLiteral ∨ token.text = "(") := fun hstarts => hapart ⟨hleft, hstarts⟩
    by_cases hoperator : token.text = "|" ∨ token.text = concatSign
    · exact ⟨token, List.mem_cons_self, hoperator⟩
    · have hends : token.isLiteral ∨ token.text = ")" ∨ token.text = "*" := by
        have hsign := hreadable.1
        simp only [IsReadable, List.mem_cons, List.not_mem_nil, or_false] at hsign
        tauto
      obtain ⟨other, hother, htext⟩ := ih hends hreadable.2 hrest
      exact ⟨other, List.mem_cons_of_mem _ hother, htext⟩

end Between

/-- Joining is the shortest completion of a row of written tokens.  What is put in stands between
two tokens that abut, at the place of the right one, and joining again puts in nothing.  If all
tokens can be read, there is a binary operator between any two literals of the joined row. -/
theorem joined_exact (hwritten : ∀ token ∈ tokens, token.implicit = false) :
    Completes (joined tokens) tokens ∧
    (∀ row, Completes row tokens → (joined tokens).length ≤ row.length) ∧
    (∀ before token after, joined tokens = before ++ token :: after → token.implicit = true →
      ∃ front left right rest, before = front ++ [left] ∧ after = right :: rest ∧
        left.Abuts right ∧
        token = { text := concatSign, position := right.position, implicit := true }) ∧
    joined (joined tokens) = joined tokens ∧
    ((∀ token ∈ tokens, token.IsReadable) → ∀ before left between right after,
      joined tokens = before ++ left :: (between ++ right :: after) →
        left.isLiteral → right.isLiteral →
          ∃ token ∈ between, token.text = "|" ∨ token.text = concatSign) := by
  have hseparated := separated_joined tokens
  refine ⟨⟨filter_joined hwritten, hseparated⟩, fun row hrow => hrow.length_le,
    fun before token after => neighbours_of_implicit hwritten, joined_eq_self hseparated, ?_⟩
  intro hreadable before left between right after hrow hleft hright
  have hsigns : ∀ token ∈ joined tokens, token.IsReadable :=
    forall_mem_joined hreadable fun _ => Or.inr (by simp)
  rw [hrow] at hsigns hseparated
  refine exists_operator_of_separated (Or.inl hleft) hright (fun token htoken => ?_)
    (hseparated.suffix (List.suffix_append before _))
  apply hsigns
  simp [htoken]

/-- Readable tokens at odd places.  The parentheses have no partners. -/
def stragglers : List Token :=
  [⟨"a", 4, false⟩, ⟨")", -1, false⟩, ⟨"*", 9, false⟩, ⟨"(", 9, false⟩, ⟨"b", 0, false⟩,
    ⟨"1", 2, false⟩]

/-- The star ends the operand that the first parenthesis ends, and the second one starts another. -/
theorem joined_exact_stragglers :
    (∀ token ∈ stragglers, token.implicit = false) ∧
    (∀ token ∈ stragglers, token.IsReadable) ∧
    joined stragglers = [⟨"a", 4, false⟩, ⟨")", -1, false⟩, ⟨"*", 9, false⟩, ⟨".", 9, true⟩,
      ⟨"(", 9, false⟩, ⟨"b", 0, false⟩, ⟨".", 2, true⟩, ⟨"1", 2, false⟩] ∧
    Completes (joined stragglers) stragglers ∧
    (∀ row, Completes row stragglers → (joined stragglers).length ≤ row.length) ∧
    joined (joined stragglers) = joined stragglers ∧
    ∃ token : Token, token ∈ [⟨")", -1, false⟩, ⟨"*", 9, false⟩, ⟨".", 9, true⟩, ⟨"(", 9, false⟩] ∧
      (token.text = "|" ∨ token.text = concatSign) := by
  have hwritten : ∀ token ∈ stragglers, token.implicit = false := by decide
  have hreadable : ∀ token ∈ stragglers, token.IsReadable := by
    simp only [stragglers, List.forall_mem_cons, IsReadable]
    decide
  obtain ⟨hcompletes, hshortest, -, hagain, hbetween⟩ := joined_exact hwritten
  exact ⟨hwritten, hreadable, rfl, hcompletes, hshortest, hagain,
    hbetween hreadable [] ⟨"a", 4, false⟩ _ ⟨"b", 0, false⟩
      [⟨".", 2, true⟩, ⟨"1", 2, false⟩] rfl rfl rfl⟩

end RegexAutomata.Token
