import Mathlib.Data.List.Chain
import RegexAutomata.Regex.Token

/-!
# What tokens are to each other

The role of a token is read off its text.  In a row of scanned tokens the operands are the literals,
and joining puts a concatenation exactly where an operand may end before the next one starts.
-/

namespace RegexAutomata.Token

variable {token : Token}

section Role

theorem role_eq_opening_iff : token.role = .opening ↔ token.text = "(" := by
  rw [role]
  repeat' split
  all_goals simp_all

theorem role_eq_closing_iff : token.role = .closing ↔ token.text = ")" := by
  rw [role]
  repeat' split
  all_goals simp_all

theorem role_eq_star_iff : token.role = .operator .star ↔ token.text = "*" := by
  rw [role]
  repeat' split
  all_goals simp_all [concatSign]

theorem role_eq_concat_iff : token.role = .operator .concat ↔ token.text = concatSign := by
  rw [role]
  repeat' split
  all_goals simp_all [concatSign]

theorem role_eq_alternation_iff : token.role = .operator .alternation ↔ token.text = "|" := by
  rw [role]
  repeat' split
  all_goals simp_all [concatSign]

end Role

theorem isLiteral_toString (character : Char) :
    RegexAutomata.isLiteral character.toString = character.isAlphanum := by
  simp [RegexAutomata.isLiteral]

/-- A token as it comes from a text: it stands for an admitted character or for a concatenation that
is not written. -/
def Legible (token : Token) : Prop :=
  if token.implicit then token.text = concatSign
  else ∃ character, isAdmitted character ∧ token.text = character.toString

theorem role_of_isLiteral (hliteral : token.isLiteral) : token.role = .operand := by
  have hsign : ∀ sign : String, RegexAutomata.isLiteral sign = false → token.text ≠ sign := by
    rintro sign hsign rfl
    exact Bool.false_ne_true (hsign.symm.trans hliteral)
  rw [role, if_neg (hsign "(" rfl), if_neg (hsign ")" rfl), if_neg (hsign "*" rfl),
    if_neg (hsign concatSign rfl), if_neg (hsign "|" rfl)]

namespace Legible

variable (hlegible : token.Legible)

include hlegible

theorem isLiteral_iff : token.isLiteral ↔ token.role = .operand := by
  refine ⟨role_of_isLiteral, fun hrole => ?_⟩
  unfold Legible at hlegible
  split at hlegible
  · simp [role_eq_concat_iff.2 hlegible] at hrole
  · obtain ⟨character, hadmitted, htext⟩ := hlegible
    simp only [isAdmitted, Bool.or_eq_true, beq_iff_eq] at hadmitted
    rcases hadmitted with ((((halphanum | rfl) | rfl) | rfl) | rfl) | rfl
    · rw [isLiteral, htext, isLiteral_toString, halphanum]
    · simp [role_eq_opening_iff.2 htext] at hrole
    · simp [role_eq_closing_iff.2 htext] at hrole
    · simp [role_eq_alternation_iff.2 htext] at hrole
    · simp [role_eq_star_iff.2 htext] at hrole
    · simp [role_eq_concat_iff.2 htext] at hrole

theorem startsOperand_iff :
    token.startsOperand ↔ token.role = .operand ∨ token.role = .opening := by
  rw [startsOperand, Bool.or_eq_true, hlegible.isLiteral_iff, beq_iff_eq, role_eq_opening_iff]

theorem endsOperand_iff :
    token.endsOperand ↔
      token.role = .operand ∨ token.role = .closing ∨ token.role = .operator .star := by
  rw [endsOperand, Bool.or_eq_true, Bool.or_eq_true, hlegible.isLiteral_iff, beq_iff_eq,
    beq_iff_eq, role_eq_closing_iff, role_eq_star_iff, or_assoc]

end Legible

section Joined

/-- What joining puts between two neighbours. -/
def gap (left right : Token) : List Token :=
  if left.endsOperand && right.startsOperand then
    [{ text := concatSign, position := right.position, implicit := true }]
  else []

theorem joined_cons_cons (next : Token) (rest : List Token) :
    joined (token :: next :: rest) = token :: (gap token next ++ joined (next :: rest)) := by
  rw [joined, gap]
  split <;> rfl

theorem exists_joined_eq_cons (next : Token) (rest : List Token) :
    ∃ tail, joined (next :: rest) = next :: tail := by
  cases rest with
  | nil => exact ⟨[], rfl⟩
  | cons other rest => exact ⟨_, joined_cons_cons other rest⟩

/-- What is joined between two neighbours depends on these two only. -/
theorem joined_append (left : List Token) (last first : Token) (right : List Token) :
    joined (left ++ last :: first :: right) =
      joined (left ++ [last]) ++ gap last first ++ joined (first :: right) := by
  induction left with
  | nil => exact joined_cons_cons first right
  | cons token rest ih =>
    cases rest with
    | nil =>
      have hlast : joined (token :: [last]) = token :: (gap token last ++ [last]) :=
        joined_cons_cons last []
      simp only [List.nil_append, List.cons_append, hlast, joined_cons_cons, List.append_assoc]
    | cons next rest =>
      simp only [List.cons_append, joined_cons_cons, List.append_assoc] at ih ⊢
      rw [ih]

theorem eq_of_mem_gap {left right : Token} (htoken : token ∈ gap left right) :
    token = { text := concatSign, position := right.position, implicit := true } := by
  rw [gap] at htoken
  split at htoken
  · exact List.mem_singleton.1 htoken
  · exact absurd htoken List.not_mem_nil

/-- Joining adds nothing but concatenations that are not written. -/
theorem filter_joined {tokens : List Token} (hwritten : ∀ token ∈ tokens, token.implicit = false) :
    (joined tokens).filter (fun token => !token.implicit) = tokens := by
  induction tokens with
  | nil => rfl
  | cons token rest ih =>
    rw [List.forall_mem_cons] at hwritten
    cases rest with
    | nil => simp [joined, hwritten.1]
    | cons next rest =>
      have hgap : (gap token next).filter (fun token => !token.implicit) = [] := by
        apply List.filter_eq_nil_iff.2
        intro other hother
        rw [eq_of_mem_gap hother]
        simp
      rw [joined_cons_cons, List.filter_cons_of_pos (by simp [hwritten.1]), List.filter_append,
        hgap, List.nil_append, ih hwritten.2]

theorem forall_mem_joined {property : Token → Prop} {tokens : List Token}
    (htokens : ∀ token ∈ tokens, property token)
    (hgap : ∀ position, property { text := concatSign, position, implicit := true }) :
    ∀ token ∈ joined tokens, property token := by
  induction tokens with
  | nil => exact htokens
  | cons token rest ih =>
    cases rest with
    | nil => exact htokens
    | cons next rest =>
      rw [List.forall_mem_cons] at htokens
      rw [joined_cons_cons, List.forall_mem_cons]
      refine ⟨htokens.1, fun other hother => ?_⟩
      rcases List.mem_append.1 hother with hnew | hold
      · rw [eq_of_mem_gap hnew]
        exact hgap _
      · exact ih htokens.2 other hold

theorem legible_joined {tokens : List Token} (hlegible : ∀ token ∈ tokens, token.Legible) :
    ∀ token ∈ joined tokens, token.Legible :=
  forall_mem_joined hlegible fun _ => rfl

/-- No token that may end an operand stands next to one that may start an operand. -/
theorem isChain_joined (tokens : List Token) :
    (joined tokens).IsChain fun left right => ¬ (left.endsOperand ∧ right.startsOperand) := by
  induction tokens with
  | nil => exact .nil
  | cons token rest ih =>
    cases rest with
    | nil => exact .singleton token
    | cons next rest =>
      obtain ⟨tail, htail⟩ := exists_joined_eq_cons next rest
      rw [htail] at ih
      rw [joined_cons_cons, htail, gap]
      split
      · have hsign : ∀ position, startsOperand ⟨concatSign, position, true⟩ = false ∧
            endsOperand ⟨concatSign, position, true⟩ = false := by
          intro position
          simp [startsOperand, endsOperand, isLiteral, RegexAutomata.isLiteral, concatSign]
        refine .cons_cons (fun hboth => ?_) (.cons_cons (fun hboth => ?_) ih)
        · rw [(hsign _).1] at hboth
          exact Bool.false_ne_true hboth.2
        · rw [(hsign _).2] at hboth
          exact Bool.false_ne_true hboth.1
      · next hapart =>
        rw [Bool.and_eq_true] at hapart
        exact .cons_cons hapart ih

end Joined

section Scan

theorem exists_scanFrom_cons {character : Char} {rest : List Char} {position : Nat}
    {tokens : List Token} (hscan : scanFrom position (character :: rest) = .ok tokens) :
    isAdmitted character ∧ ∃ scanned, scanFrom (position + 1) rest = .ok scanned ∧
      tokens = { text := character.toString, position } :: scanned := by
  rw [scanFrom] at hscan
  split at hscan
  · next hadmitted =>
    cases hrest : scanFrom (position + 1) rest with
    | error error => simp [hrest, bind, Except.bind] at hscan
    | ok scanned =>
      simp only [hrest, bind, Except.bind, pure, Except.pure, Except.ok.injEq] at hscan
      exact ⟨hadmitted, scanned, rfl, hscan.symm⟩
  · cases hscan

/-- The tokens are the characters of the text, one by one, if all of these are admitted. -/
theorem scanFrom_eq_ok {characters : List Char} {position : Nat} {tokens : List Token}
    (hscan : scanFrom position characters = .ok tokens) :
    (∀ character ∈ characters, isAdmitted character) ∧
      tokens.map Token.text = characters.map Char.toString ∧
      ∀ token ∈ tokens, token.implicit = false := by
  induction characters generalizing position tokens with
  | nil =>
    cases hscan
    simp
  | cons character rest ih =>
    obtain ⟨hadmitted, scanned, hrest, rfl⟩ := exists_scanFrom_cons hscan
    obtain ⟨hothers, htexts, hwritten⟩ := ih hrest
    simp only [List.forall_mem_cons, List.map_cons, htexts]
    exact ⟨⟨hadmitted, hothers⟩, trivial, trivial, hwritten⟩

theorem scanFrom_of_admitted {characters : List Char}
    (hadmitted : ∀ character ∈ characters, isAdmitted character) (position : Nat) :
    ∃ tokens, scanFrom position characters = .ok tokens := by
  induction characters generalizing position with
  | nil => exact ⟨[], rfl⟩
  | cons character rest ih =>
    rw [List.forall_mem_cons] at hadmitted
    obtain ⟨tokens, htokens⟩ := ih hadmitted.2 (position + 1)
    rw [scanFrom, if_pos hadmitted.1, htokens]
    exact ⟨_, rfl⟩

end Scan

end RegexAutomata.Token
