import RegexAutomata.Proofs.Regex.Parentheses
import RegexAutomata.Proofs.Regex.Placement

/-!
# What is wrong with a text that is not read

A character that may not stand in a text is found first, then parentheses without partners, then
the lack of operands.  The order of operations finds the parentheses: those that wait on its stack
are those that are open in the text so far.  What is lacking is found when the tree is built, at an
operator if there is any.  No text comes to more than one tree, so nothing else can be wrong.
-/

namespace RegexAutomata.Regex

open Token

/-- All characters are allowed, and every parenthesis has a partner. -/
structure Grouped (text : List Char) : Prop where
  allowed : ∀ character ∈ text, Allowed character
  closes : ¬ Overclosed text
  opens : ∀ index, ¬ UnmatchedOpen text index

/-- What an error says about a text.  Each cause is given only if the ones before it are absent. -/
inductive Diagnosis (text : List Char) : SyntaxError → Prop where
  | foreignCharacter {before after : List Char} {character : Char}
      (htext : text = before ++ character :: after) (hbefore : ∀ other ∈ before, Allowed other)
      (hcharacter : ¬ Allowed character) :
      Diagnosis text ⟨.foreignCharacter character.toString, before.length⟩
  | unmatchedClose {index : Nat} (hallowed : ∀ character ∈ text, Allowed character)
      (hoverclosed : Overclosed text) (hindex : IsLeast {index | UnmatchedClose text index} index) :
      Diagnosis text ⟨.unmatchedClose, index⟩
  | unmatchedOpen {index : Nat} (hallowed : ∀ character ∈ text, Allowed character)
      (hoverclosed : ¬ Overclosed text)
      (hindex : IsGreatest {index | UnmatchedOpen text index} index) :
      Diagnosis text ⟨.unmatchedOpen, index⟩
  | empty {depth : Nat} (hgrouped : Grouped text)
      (hempty : text = List.replicate depth '(' ++ List.replicate depth ')') :
      Diagnosis text ⟨.empty, text.length⟩
  | missingOperand {name : String} {index : Nat} (hgrouped : Grouped text)
      (hempty : ∀ depth, text ≠ List.replicate depth '(' ++ List.replicate depth ')')
      (hindex : index < text.length) (hoperator : OperatorAt text name index) :
      Diagnosis text ⟨.missingOperand name, index⟩

section Parentheses

variable {token : Token} {tokens waiting out below : List Token} {text : List Char}

def Holds (text : List Char) (waiting : List Token) : Prop :=
  ∃ indices, Open text indices ∧
    (waiting.filter isOpening).map Token.position = indices.map (Nat.cast : Nat → Int)

/-- What ordering the tokens of a text comes to: it finds the first right parenthesis without
partner, or else the last left one, or else there is none. -/
inductive Verdict : List Char → Except SyntaxError (List Token) → Prop where
  | balanced {text : List Char} {ordered : List Token} (htext : Balanced text) :
      Verdict text (.ok ordered)
  | overclosed {before after : List Char} (hbefore : Balanced before) :
      Verdict (before ++ ')' :: after) (.error ⟨.unmatchedClose, before.length⟩)
  | unclosed {before inner : List Char} {indices : List Nat} (hbefore : Open before indices)
      (hinner : Balanced inner) :
      Verdict (before ++ '(' :: inner) (.error ⟨.unmatchedOpen, before.length⟩)

theorem balanced_written (hlegible : token.Legible) (hrole : token.isParenthesis = false) :
    Balanced (written [token]) := by
  cases himplicit : token.implicit with
  | true =>
    have hnone : written [token] = [] := by simp [written, himplicit]
    rw [hnone]
    exact .nil
  | false =>
    obtain ⟨character, htext, hwritten⟩ := exists_character hlegible himplicit
    rw [isParenthesis, Bool.or_eq_false_iff, decide_eq_false_iff_not, decide_eq_false_iff_not,
      role_eq_opening_iff, role_eq_closing_iff, htext] at hrole
    rw [hwritten]
    refine .plain ?_ ?_ .nil
    · rintro rfl
      exact hrole.1 rfl
    · rintro rfl
      exact hrole.2 rfl

/-- One step of the ordering keeps account of the groups that are open. -/
theorem Holds.step (hholds : Holds text waiting) (hlegible : token.Legible)
    (hposition : token.position = text.length) (hordering : Ordering token waiting out below) :
    Holds (text ++ written [token]) below := by
  obtain ⟨indices, hopen, hwaiting⟩ := hholds
  cases hordering with
  | opening hrole =>
    rw [written_sign hlegible (role_eq_opening_iff.1 hrole) (by decide)]
    refine ⟨text.length :: indices, hopen.opening, ?_⟩
    rw [List.filter_cons_of_pos (by simp [isOpening, hrole]), List.map_cons, hwaiting, hposition,
      List.map_cons]
  | @closing opening out below hrole hopening hout =>
    rw [List.filter_append, filter_isOpening_eq_nil hout, List.nil_append,
      List.filter_cons_of_pos hopening, List.map_cons] at hwaiting
    obtain ⟨index, others, rfl, -, hothers⟩ := List.map_eq_cons_iff.1 hwaiting.symm
    rw [written_sign hlegible (role_eq_closing_iff.1 hrole) (by decide)]
    exact ⟨others, hopen.closing, hothers.symm⟩
  | @operator operator out kept hrole hout =>
    -- operators come and go, but the parentheses that wait stay the same
    have hnone := filter_isOpening_eq_nil fun other hother =>
      (isParenthesis_of_yieldsTo (hout other hother)).2
    have hsign : (token :: kept).filter isOpening = kept.filter isOpening :=
      List.filter_cons_of_neg (by simp [isOpening, hrole])
    rw [List.filter_append, hnone, List.nil_append, ← hsign] at hwaiting
    exact ⟨indices, hopen.append (balanced_written hlegible (by simp [isParenthesis, hrole])),
      hwaiting⟩
  | operand hrole =>
    exact ⟨indices, hopen.append (balanced_written hlegible (by simp [isParenthesis, hrole])),
      hwaiting⟩

theorem Verdict.prepend {visit : Except SyntaxError (List Token)} (hverdict : Verdict text visit)
    (out : List Token) : Verdict text (do let others ← visit; return out ++ others) := by
  cases hverdict with
  | balanced htext => exact .balanced htext
  | overclosed hbefore => exact .overclosed hbefore
  | unclosed hbefore hinner => exact .unclosed hbefore hinner

/-- At the end of a text a left parenthesis that still waits has no partner, and the last one is
found first. -/
theorem Holds.verdict_release (hholds : Holds text waiting) : Verdict text (release waiting) := by
  induction waiting with
  | nil =>
    obtain ⟨indices, hopen, hwaiting⟩ := hholds
    obtain rfl := List.map_eq_nil_iff.1 hwaiting.symm
    exact .balanced hopen.balanced
  | cons token rest ih =>
    rw [release]
    split
    · next hopening =>
      obtain ⟨indices, hopen, hwaiting⟩ := hholds
      rw [List.filter_cons_of_pos hopening, List.map_cons] at hwaiting
      obtain ⟨index, others, rfl, hposition, -⟩ := List.map_eq_cons_iff.1 hwaiting.symm
      rw [← hposition]
      cases hopen with
      | inside hbefore hinner => exact .unclosed hbefore hinner
    · next hother =>
      rw [Holds, List.filter_cons_of_neg hother] at hholds
      exact (ih hholds).prepend [token]

/-- Ordering stops at the first right parenthesis without partner, if the text comes to one. -/
theorem Holds.verdict_postOrderFrom (hholds : Holds text waiting)
    (hlegible : ∀ token ∈ tokens, token.Legible) (hplaced : Placed text.length tokens) :
    Verdict (text ++ written tokens) (postOrderFrom waiting tokens) := by
  induction tokens generalizing text waiting with
  | nil =>
    have hnone : written [] = [] := rfl
    rw [hnone, List.append_nil]
    exact hholds.verdict_release
  | cons token rest ih =>
    rw [List.forall_mem_cons] at hlegible
    obtain ⟨hposition, hrest⟩ := hplaced
    rw [written_cons, ← List.append_assoc]
    rcases postOrderFrom_cons waiting token rest with
      ⟨out, below, hordering, hequal⟩ | ⟨hrole, hnone, hequal⟩
    · rw [hequal]
      have hnext := hholds.step hlegible.1 hposition hordering
      rw [← List.length_append] at hrest
      exact (ih hnext hlegible.2 hrest).prepend out
    · obtain ⟨indices, hopen, hwaiting⟩ := hholds
      rw [filter_isOpening_eq_nil hnone, List.map_nil] at hwaiting
      obtain rfl := List.map_eq_nil_iff.1 hwaiting.symm
      rw [hequal, hposition, written_sign hlegible.1 (role_eq_closing_iff.1 hrole) (by decide),
        List.append_assoc]
      exact .overclosed hopen.balanced

end Parentheses

section Nest

variable {tokens : List Token} {text : List Char} {name : String} {index : Nat}

/-- A nest of groups has neither operators nor neighbours that are joined. -/
theorem OperatorAt.ne_nest (hoperator : OperatorAt text name index) (depth : Nat) :
    text ≠ List.replicate depth '(' ++ List.replicate depth ')' := by
  intro hnest
  have honly : ∀ character ∈ text, character = '(' ∨ character = ')' := by
    rw [hnest, List.forall_mem_append]
    exact ⟨fun _ hleft => Or.inl (List.eq_of_mem_replicate hleft),
      fun _ hright => Or.inr (List.eq_of_mem_replicate hright)⟩
  cases hoperator with
  | @written before after character htext hcharacter =>
    rcases honly character (by simp [htext]) with rfl | rfl <;> simp at hcharacter
  | @implied before after last first htext hlast hfirst =>
    have hclosing : last = ')' := by
      rcases honly last (by simp [htext]) with rfl | rfl
      · simp at hlast
      · rfl
    have hopening : first = '(' := by
      rcases honly first (by simp [htext]) with rfl | rfl
      · rfl
      · simp at hfirst
    have hpairs : text.Pairwise fun one other => ¬ (one = ')' ∧ other = '(') := by
      rw [hnest, List.pairwise_append]
      simp [List.pairwise_replicate]
    rw [htext, List.pairwise_append] at hpairs
    exact List.rel_of_pairwise_cons hpairs.2.1 List.mem_cons_self ⟨hclosing, hopening⟩

/-- A balanced text all of whose tokens are parentheses is a nest of groups. -/
theorem exists_eq_nest (htexts : tokens.map Token.text = text.map Char.toString)
    (hbalanced : Balanced text) (hapart : Apart tokens)
    (hparentheses : ∀ token ∈ tokens, token.isParenthesis) :
    ∃ depth, text = List.replicate depth '(' ++ List.replicate depth ')' := by
  apply hbalanced.exists_eq_replicate
  · intro character hcharacter
    have htext : character.toString ∈ tokens.map Token.text := by
      rw [htexts]
      exact List.mem_map_of_mem hcharacter
    obtain ⟨token, htoken, hsame⟩ := List.mem_map.1 htext
    have hparenthesis := hparentheses token htoken
    rw [isParenthesis, Bool.or_eq_true, decide_eq_true_iff, decide_eq_true_iff,
      role_eq_opening_iff, role_eq_closing_iff, hsame] at hparenthesis
    simpa [← String.toList_inj] using hparenthesis
  · have hneighbours : (tokens.map Token.text).IsChain
        fun one other => ¬ (one = ")" ∧ other = "(") := by
      rw [List.isChain_map]
      apply hapart.imp
      rintro left right hnever ⟨hleft, hright⟩
      exact hnever ⟨by rw [ends_sign hleft]; rfl, by rw [starts_sign hright]; rfl⟩
    rw [htexts, List.isChain_map] at hneighbours
    apply hneighbours.imp
    rintro one other hnever ⟨rfl, rfl⟩
    exact hnever ⟨rfl, rfl⟩

end Nest

section Reduction

variable {ordered : List Token} {stack final : List Regex} {error : SyntaxError} {finish : Int}

/-- A token leaves a tree on the stack, or it is an operator that lacks an operand. -/
theorem reduce_cons (stack : List Regex) (token : Token) (rest : List Token) :
    (∃ top below, reduce stack (token :: rest) = reduce (top :: below) rest) ∨
      ∃ operator, token.role = .operator operator ∧
        reduce stack (token :: rest) = .error ⟨.missingOperand token.text, token.position⟩ := by
  rw [reduce.eq_def stack (token :: rest)]
  dsimp only
  split
  · exact Or.inl ⟨_, _, rfl⟩
  · exact Or.inl ⟨_, _, rfl⟩
  · exact Or.inl ⟨_, _, rfl⟩
  · next operator hrole _ _ _ => exact Or.inr ⟨operator, hrole, rfl⟩
  · exact Or.inl ⟨_, _, rfl⟩

/-- Building a tree fails at an operator. -/
theorem reduce_eq_error (hreduce : reduce stack ordered = .error error) :
    ∃ token ∈ ordered, ∃ operator, token.role = .operator operator ∧
      error = ⟨.missingOperand token.text, token.position⟩ := by
  induction ordered generalizing stack with
  | nil => cases hreduce
  | cons token rest ih =>
    rcases reduce_cons stack token rest with ⟨top, below, hequal⟩ | ⟨operator, hrole, hequal⟩
    · obtain ⟨found, hfound, hlacks⟩ := ih (hequal.symm.trans hreduce)
      exact ⟨found, List.mem_cons_of_mem _ hfound, hlacks⟩
    · have herror := Except.error.inj (hequal.symm.trans hreduce)
      exact ⟨token, List.mem_cons_self, operator, hrole, herror.symm⟩

/-- No tree is left only if there was nothing to build one from. -/
theorem eq_nil_of_reduce (hreduce : reduce stack ordered = .ok []) : stack = [] ∧ ordered = [] := by
  induction ordered generalizing stack with
  | nil => exact ⟨Except.ok.inj hreduce, rfl⟩
  | cons token rest ih =>
    rcases reduce_cons stack token rest with ⟨top, below, hequal⟩ | ⟨operator, -, hequal⟩
    · exact absurd (ih (hequal.symm.trans hreduce)).1 (List.cons_ne_nil _ _)
    · cases hequal.symm.trans hreduce

/-- Ordered tokens that come to one tree at most can fail in two ways only: there are none, or some
operator finds no operand. -/
theorem ofPostOrder_eq_error (hparenthesis : ∀ token ∈ ordered, token.isParenthesis = false)
    (hweigh : weigh ordered ≤ 1) (hregex : ofPostOrder ordered finish = .error error) :
    (ordered = [] ∧ error = ⟨.empty, finish⟩) ∨
      ∃ token ∈ ordered, ∃ operator, token.role = .operator operator ∧
        error = ⟨.missingOperand token.text, token.position⟩ := by
  rw [ofPostOrder] at hregex
  cases hreduce : reduce [] ordered with
  | error found =>
    simp only [hreduce, bind, Except.bind, Except.error.injEq] at hregex
    subst hregex
    exact Or.inr (reduce_eq_error hreduce)
  | ok final =>
    have hlength := length_of_reduce hparenthesis hreduce
    simp only [hreduce, bind, Except.bind] at hregex
    split at hregex
    · cases hregex
      exact Or.inl ⟨(eq_nil_of_reduce hreduce).2, rfl⟩
    · cases hregex
    · next hnone hseveral =>
      have hcount : final.length ≤ 1 := by
        rw [List.length_nil] at hlength
        omega
      rcases Nat.le_one_iff_eq_zero_or_eq_one.1 hcount with hzero | hone
      · exact absurd (List.length_eq_zero_iff.1 hzero) hnone
      · obtain ⟨regex, hone⟩ := List.length_eq_one_iff.1 hone
        exact absurd hone (hseveral regex)

end Reduction

section Parsed

variable {tokens ordered : List Token} {text : String} {error : SyntaxError}

theorem allowed_of_scan (hscan : scan text = .ok tokens) :
    ∀ character ∈ text.toList, Allowed character := fun character hcharacter =>
  isAdmitted_iff.1 ((scanFrom_eq_ok hscan).1 character hcharacter)

theorem verdict_postOrder (hscan : scan text = .ok tokens) :
    Verdict text.toList (postOrder (joined tokens)) := by
  obtain ⟨htexts, hwritten, hlegible⟩ := scan_eq_ok hscan
  have hholds : Holds [] [] := ⟨[], .outside .nil, rfl⟩
  have hplaced : Placed ([] : List Char).length (joined tokens) := (placed_scanFrom hscan).joined
  have hverdict := hholds.verdict_postOrderFrom (legible_joined hlegible) hplaced
  rwa [List.nil_append, written_joined htexts hwritten] at hverdict

theorem balanced_of_postOrder (hscan : scan text = .ok tokens)
    (hordered : postOrder (joined tokens) = .ok ordered) : Balanced text.toList := by
  have hverdict := verdict_postOrder hscan
  rw [hordered] at hverdict
  generalize text.toList = characters at hverdict
  cases hverdict with
  | balanced htext => exact htext

/-- Tokens of which none is put out in post-order are parentheses, and none is put in between. -/
theorem joined_eq_of_postOrder (hscan : scan text = .ok tokens)
    (hordered : postOrder (joined tokens) = .ok []) :
    joined tokens = tokens ∧ ∀ token ∈ tokens, token.isParenthesis := by
  obtain ⟨-, hwritten, hlegible⟩ := scan_eq_ok hscan
  have hnone := (postOrder_eq_ok hordered).1.nil_eq.symm
  have hparentheses : ∀ token ∈ joined tokens, token.isParenthesis := by
    intro token htoken
    simpa using List.filter_eq_nil_iff.1 hnone token htoken
  have hexplicit : ∀ token ∈ joined tokens, (!token.implicit) = true := by
    intro token htoken
    have hrole : token.role ≠ .operator .concat := by
      have hparenthesis := hparentheses token htoken
      intro hconcat
      simp [isParenthesis, hconcat] at hparenthesis
    rw [explicit_of_role (legible_joined hlegible token htoken) hrole]
    rfl
  have hequal : joined tokens = tokens := by
    rw [← List.filter_eq_self.2 hexplicit]
    exact filter_joined hwritten
  exact ⟨hequal, hequal ▸ hparentheses⟩

theorem Balanced.grouped {text : List Char} (hbalanced : Balanced text)
    (hallowed : ∀ character ∈ text, Allowed character) : Grouped text :=
  ⟨hallowed, hbalanced.not_overclosed, hbalanced.not_unmatchedOpen⟩

/-- What ordering fails at is a parenthesis without partner. -/
theorem Verdict.diagnosis {text : List Char} (hverdict : Verdict text (.error error))
    (hallowed : ∀ character ∈ text, Allowed character) : Diagnosis text error := by
  cases hverdict with
  | @overclosed before after hbefore =>
    exact .unmatchedClose hallowed (hbefore.overclosed after) (hbefore.isLeast_unmatchedClose after)
  | @unclosed before inner indices hbefore hinner =>
    have hopen := hbefore.inside hinner
    exact .unmatchedOpen hallowed hopen.not_overclosed (hinner.isGreatest_unmatchedOpen before)

/-- What building the tree fails at is an operator, unless there are parentheses only. -/
theorem diagnosis_of_ofPostOrder (hscan : scan text = .ok tokens)
    (hordered : postOrder (joined tokens) = .ok ordered)
    (hregex : ofPostOrder ordered text.length = .error error) : Diagnosis text.toList error := by
  obtain ⟨htexts, hwritten, hlegible⟩ := scan_eq_ok hscan
  obtain ⟨hperm, hparenthesis, hkept⟩ := postOrder_eq_ok hordered
  have hbalanced := balanced_of_postOrder hscan hordered
  have hgrouped := hbalanced.grouped (allowed_of_scan hscan)
  have hfits : Fits true (joined tokens) :=
    Apart.fits (isChain_joined tokens) (legible_joined hlegible) (by simp)
  rcases ofPostOrder_eq_error hparenthesis (hkept.trans_le hfits.weigh_le) hregex with
    ⟨rfl, rfl⟩ | ⟨token, htoken, operator, hrole, rfl⟩
  · obtain ⟨hequal, hparentheses⟩ := joined_eq_of_postOrder hscan hordered
    obtain ⟨depth, hnest⟩ :=
      exists_eq_nest htexts hbalanced (hequal ▸ isChain_joined tokens) hparentheses
    rw [← String.length_toList]
    exact .empty hgrouped hnest
  · have hmem := (List.mem_filter.1 (hperm.mem_iff.1 htoken)).1
    obtain ⟨index, hposition, hoperator⟩ :=
      exists_operatorAt (placed_scanFrom hscan) hlegible hwritten hmem hrole
    rw [written_scanned htexts hwritten] at hoperator
    rw [hposition]
    exact .missingOperand hgrouped hoperator.ne_nest hoperator.lt_length hoperator

/-- An error is about the first pass that fails, and the passes before it have ruled out the other
causes. -/
theorem diagnosis_of_parse (hparse : parse text = .error error) :
    Diagnosis text.toList error := by
  rw [parse] at hparse
  cases hscan : scan text with
  | error found =>
    obtain ⟨before, character, after, htext, hbefore, hcharacter, rfl⟩ := scanFrom_eq_error hscan
    simp only [hscan, bind, Except.bind, Except.error.injEq] at hparse
    simp only [isAdmitted_iff] at hbefore hcharacter
    rw [← hparse, Nat.zero_add]
    exact .foreignCharacter htext hbefore hcharacter
  | ok tokens =>
    cases hordered : postOrder (joined tokens) with
    | error found =>
      have hverdict := verdict_postOrder hscan
      simp only [hscan, hordered, bind, Except.bind, Except.error.injEq] at hparse
      rw [hordered, hparse] at hverdict
      exact hverdict.diagnosis (allowed_of_scan hscan)
    | ok ordered =>
      simp only [hscan, hordered, bind, Except.bind] at hparse
      exact diagnosis_of_ofPostOrder hscan hordered hparse

/-- Every text that is not read has a first cause for it, and the error names it and its place. -/
theorem parse_diagnosis (hparse : parse text = .error error) :
    Diagnosis text.toList error ∧ error.fault ≠ .irreducible := by
  have hdiagnosis := diagnosis_of_parse hparse
  refine ⟨hdiagnosis, ?_⟩
  cases hdiagnosis <;> exact SyntaxFault.noConfusion

/-- A group that starts with an operator follows an operand: the concatenation before the group is
the one that lacks an operand. -/
theorem parse_diagnosis_group :
    parse "a(|b)" = .error ⟨.missingOperand ".", 1⟩ ∧
      Diagnosis "a(|b)".toList ⟨.missingOperand ".", 1⟩ ∧
      (SyntaxFault.missingOperand ".") ≠ .irreducible := by
  have hparse : parse "a(|b)" = .error ⟨.missingOperand ".", 1⟩ := rfl
  exact ⟨hparse, parse_diagnosis hparse⟩

end Parsed

end RegexAutomata.Regex
