import RegexAutomata.Proofs.Regex.Parse

/-!
# Where tokens stand in a text

A scanned token has the index of its character as its position, and a concatenation that is put in
has that of the character behind it.  So an operator among joined tokens stands for an operator at
its position in the text: one that is written there, or one that is left out before what is there.
-/

namespace RegexAutomata.Regex

open Token

/-- A letter or a digit, a parenthesis or an operator. -/
def Allowed (character : Char) : Prop :=
  character.isAlphanum ∨ character ∈ ['(', ')', '|', '*', '.']

/-- There is an operator of this name at an index of a text: it is written there, or it is the
concatenation that is left out between an operand and the next one, which starts there. -/
inductive OperatorAt (text : List Char) : String → Nat → Prop where
  | written {before after : List Char} {character : Char}
      (htext : text = before ++ character :: after) (hoperator : character ∈ ['|', '*', '.']) :
      OperatorAt text character.toString before.length
  | implied {before after : List Char} {last first : Char}
      (htext : text = before ++ last :: first :: after)
      (hlast : last.isAlphanum ∨ last = ')' ∨ last = '*')
      (hfirst : first.isAlphanum ∨ first = '(') :
      OperatorAt text "." (before.length + 1)

/-- Each token has the index as its position at which it is written, counted from a given one. -/
def Placed : Nat → List Token → Prop
  | _, [] => True
  | start, token :: rest => token.position = start ∧ Placed (start + (written [token]).length) rest

variable {start index : Nat} {character : Char} {token : Token} {name : String}
  {tokens first second : List Token} {text : List Char}

theorem isAdmitted_iff : isAdmitted character ↔ Allowed character := by
  simp [isAdmitted, Allowed, or_assoc]

/-- The operator is at an index of the text. -/
theorem OperatorAt.lt_length (hoperator : OperatorAt text name index) : index < text.length := by
  cases hoperator with
  | written htext _ => simp [htext]
  | implied htext _ _ => simp [htext]

section Scanned

/-- Scanning fails at the first character that is not admitted. -/
theorem scanFrom_eq_error {characters : List Char} {error : SyntaxError}
    (hscan : scanFrom start characters = .error error) :
    ∃ before character after, characters = before ++ character :: after ∧
      (∀ other ∈ before, isAdmitted other) ∧ ¬ isAdmitted character ∧
      error = ⟨.foreignCharacter character.toString, (start + before.length : Nat)⟩ := by
  induction characters generalizing start error with
  | nil => cases hscan
  | cons character rest ih =>
    rw [scanFrom] at hscan
    split at hscan
    · next hadmitted =>
      cases hrest : scanFrom (start + 1) rest with
      | ok scanned => simp [hrest, bind, Except.bind, pure, Except.pure] at hscan
      | error found =>
        simp only [hrest, bind, Except.bind, Except.error.injEq] at hscan
        obtain ⟨before, foreign, after, rfl, hbefore, hforeign, hfound⟩ := ih hrest
        refine ⟨character :: before, foreign, after, rfl, ?_, hforeign, ?_⟩
        · exact List.forall_mem_cons.2 ⟨hadmitted, hbefore⟩
        · rw [← hscan, hfound, List.length_cons, Nat.add_right_comm, Nat.add_assoc]
    · next hforeign =>
      cases hscan
      exact ⟨[], character, rest, rfl, List.forall_mem_nil _, hforeign, rfl⟩

theorem placed_scanFrom {characters : List Char} (hscan : scanFrom start characters = .ok tokens) :
    Placed start tokens := by
  induction characters generalizing start tokens with
  | nil =>
    cases hscan
    trivial
  | cons character rest ih =>
    obtain ⟨-, scanned, hrest, rfl⟩ := exists_scanFrom_cons hscan
    refine ⟨rfl, ?_⟩
    rw [written_of_explicit rfl]
    simpa using ih hrest

end Scanned

/-- A concatenation that is not written takes the place of the token behind it. -/
theorem Placed.joined (hplaced : Placed start tokens) : Placed start (joined tokens) := by
  induction tokens generalizing start with
  | nil => exact hplaced
  | cons token rest ih =>
    cases rest with
    | nil => exact hplaced
    | cons next rest =>
      obtain ⟨htoken, hrest⟩ := hplaced
      have hnext := ih hrest
      rw [joined_cons_cons, gap]
      refine ⟨htoken, ?_⟩
      split
      · exact ⟨hrest.1, hnext⟩
      · exact hnext

theorem Placed.position_eq (hplaced : Placed start (first ++ token :: second)) :
    token.position = (start + (written first).length : Nat) := by
  induction first generalizing start with
  | nil => exact hplaced.1
  | cons other rest ih =>
    rw [ih hplaced.2, written_cons other rest, List.length_append, Nat.add_assoc]

/-- What joining puts in stands between two neighbours. -/
theorem mem_joined (htoken : token ∈ joined tokens) :
    token ∈ tokens ∨ ∃ first left right second, tokens = first ++ left :: right :: second ∧
      token ∈ gap left right := by
  induction tokens with
  | nil => exact Or.inl htoken
  | cons other rest ih =>
    cases rest with
    | nil => exact Or.inl htoken
    | cons next rest =>
      rw [joined_cons_cons, List.mem_cons, List.mem_append] at htoken
      rcases htoken with rfl | hgap | hrest
      · exact Or.inl List.mem_cons_self
      · exact Or.inr ⟨[], other, next, rest, rfl, hgap⟩
      · rcases ih hrest with hold | ⟨first, left, right, second, hsplit, hgap⟩
        · exact Or.inl (List.mem_cons_of_mem _ hold)
        · exact Or.inr ⟨other :: first, left, right, second, by rw [hsplit]; rfl, hgap⟩

/-- A token that is written has one character. -/
theorem exists_character (hlegible : token.Legible) (hexplicit : token.implicit = false) :
    ∃ character, token.text = character.toString ∧ written [token] = [character] := by
  rw [Legible, hexplicit, if_neg Bool.false_ne_true] at hlegible
  obtain ⟨character, -, htext⟩ := hlegible
  refine ⟨character, htext, ?_⟩
  rw [written_of_explicit hexplicit, htext]
  simp

theorem endsOperand_iff (htext : token.text = character.toString) :
    token.endsOperand ↔ character.isAlphanum ∨ character = ')' ∨ character = '*' := by
  rw [endsOperand, Token.isLiteral, htext, isLiteral_toString]
  simp [← String.toList_inj, or_assoc]

theorem startsOperand_iff (htext : token.text = character.toString) :
    token.startsOperand ↔ character.isAlphanum ∨ character = '(' := by
  rw [startsOperand, Token.isLiteral, htext, isLiteral_toString]
  simp [← String.toList_inj]

theorem mem_of_role_eq_operator {operator : Operator} (hrole : token.role = .operator operator)
    (htext : token.text = character.toString) : character ∈ ['|', '*', '.'] := by
  have hsame : ∀ other : Char, token.text = other.toString → character = other := by
    intro other hother
    simpa using htext.symm.trans hother
  cases operator with
  | alternation => simp [hsame '|' (role_eq_alternation_iff.1 hrole)]
  | concat => simp [hsame '.' (role_eq_concat_iff.1 hrole)]
  | star => simp [hsame '*' (role_eq_star_iff.1 hrole)]

/-- An operator among the joined tokens of a text stands for an operator at its position. -/
theorem exists_operatorAt {operator : Operator} (hplaced : Placed 0 tokens)
    (hlegible : ∀ token ∈ tokens, token.Legible)
    (hwritten : ∀ token ∈ tokens, token.implicit = false) (htoken : token ∈ joined tokens)
    (hrole : token.role = .operator operator) :
    ∃ index : Nat, token.position = index ∧ OperatorAt (written tokens) token.text index := by
  have hcharacter : ∀ token ∈ tokens, ∃ character : Char,
      token.text = character.toString ∧ written [token] = [character] := fun token htoken =>
    exists_character (hlegible token htoken) (hwritten token htoken)
  rcases mem_joined htoken with hown | ⟨before, left, right, after, rfl, hgap⟩
  · obtain ⟨character, htext, hsign⟩ := hcharacter token hown
    obtain ⟨before, after, rfl⟩ := List.append_of_mem hown
    refine ⟨_, hplaced.position_eq, ?_⟩
    rw [htext, Nat.zero_add, written_append, written_cons token, hsign]
    exact .written rfl (mem_of_role_eq_operator hrole htext)
  · obtain ⟨last, hlast, hleft⟩ := hcharacter left (by simp)
    obtain ⟨first, hfirst, hright⟩ := hcharacter right (by simp)
    have hposition : right.position = ((written before).length + 1 : Nat) := by
      rw [List.append_cons] at hplaced
      rw [hplaced.position_eq, written_append, hleft, Nat.zero_add, List.length_append,
        List.length_singleton]
    have hneighbours : left.endsOperand ∧ right.startsOperand := by
      by_contra hapart
      rw [gap, if_neg (by rwa [Bool.and_eq_true])] at hgap
      exact List.not_mem_nil hgap
    obtain rfl := eq_of_mem_gap hgap
    refine ⟨_, hposition, ?_⟩
    rw [written_append, written_cons left, hleft, written_cons right, hright]
    exact .implied rfl ((endsOperand_iff hlast).1 hneighbours.1)
      ((startsOperand_iff hfirst).1 hneighbours.2)

end RegexAutomata.Regex
