import RegexAutomata.Proofs.Regex.Token
import RegexAutomata.Regex.Basic

/-!
# The grammar of written regular expressions

Alternatives are made of sequences, sequences of repetitions and repetitions of atoms; an atom is a
literal or a group.  The same grammar is stated twice: for texts, where a concatenation need not be
written, and for joined tokens, where each concatenation is a token.  A text is derived exactly if
its joined tokens are a phrase.
-/

namespace RegexAutomata.Regex

/-- The parts of a written expression, from the one that binds least tightly on. -/
inductive Level where
  | alternatives
  | sequence
  | repetition
  | atom

/-- A text is derived as a part of some level and stands for a tree. -/
inductive Derives : Level → List Char → Regex → Prop where
  | literal {character : Char} (hliteral : character.isAlphanum) :
      Derives .atom [character] (.char character.toString)
  | group {text : List Char} {regex : Regex} (hinner : Derives .alternatives text regex) :
      Derives .atom ('(' :: (text ++ [')'])) regex
  | atom {text : List Char} {regex : Regex} (hatom : Derives .atom text regex) :
      Derives .repetition text regex
  | star {text : List Char} {regex : Regex} (hinner : Derives .repetition text regex) :
      Derives .repetition (text ++ ['*']) (.star regex)
  | repetition {text : List Char} {regex : Regex} (hrepetition : Derives .repetition text regex) :
      Derives .sequence text regex
  | juxtaposition {before after : List Char} {left right : Regex}
      (hleft : Derives .sequence before left) (hright : Derives .repetition after right) :
      Derives .sequence (before ++ after) (.concat left right)
  | concat {before after : List Char} {left right : Regex}
      (hleft : Derives .sequence before left) (hright : Derives .repetition after right) :
      Derives .sequence (before ++ '.' :: after) (.concat left right)
  | sequence {text : List Char} {regex : Regex} (hsequence : Derives .sequence text regex) :
      Derives .alternatives text regex
  | alternation {before after : List Char} {left right : Regex}
      (hleft : Derives .alternatives before left) (hright : Derives .sequence after right) :
      Derives .alternatives (before ++ '|' :: after) (.alternation left right)

/-- Tokens form a part of some level and stand for a tree, no concatenation being left out. -/
inductive Phrase : Level → List Token → Regex → Prop where
  | operand {token : Token} (hrole : token.role = .operand) :
      Phrase .atom [token] (.char token.text)
  | group {opening closing : Token} {tokens : List Token} {regex : Regex}
      (hopening : opening.role = .opening) (hclosing : closing.role = .closing)
      (hinner : Phrase .alternatives tokens regex) :
      Phrase .atom (opening :: (tokens ++ [closing])) regex
  | atom {tokens : List Token} {regex : Regex} (hatom : Phrase .atom tokens regex) :
      Phrase .repetition tokens regex
  | star {sign : Token} {tokens : List Token} {regex : Regex}
      (hsign : sign.role = .operator .star) (hinner : Phrase .repetition tokens regex) :
      Phrase .repetition (tokens ++ [sign]) (.star regex)
  | repetition {tokens : List Token} {regex : Regex}
      (hrepetition : Phrase .repetition tokens regex) : Phrase .sequence tokens regex
  | concat {sign : Token} {before after : List Token} {left right : Regex}
      (hsign : sign.role = .operator .concat) (hleft : Phrase .sequence before left)
      (hright : Phrase .repetition after right) :
      Phrase .sequence (before ++ sign :: after) (.concat left right)
  | sequence {tokens : List Token} {regex : Regex} (hsequence : Phrase .sequence tokens regex) :
      Phrase .alternatives tokens regex
  | alternation {sign : Token} {before after : List Token} {left right : Regex}
      (hsign : sign.role = .operator .alternation) (hleft : Phrase .alternatives before left)
      (hright : Phrase .sequence after right) :
      Phrase .alternatives (before ++ sign :: after) (.alternation left right)

/-- A derived text has no character that may not stand there. -/
theorem Derives.isAdmitted {level : Level} {text : List Char} {regex : Regex}
    (hderives : Derives level text regex) : ∀ character ∈ text, Token.isAdmitted character := by
  induction hderives with
  | literal hliteral => simp [Token.isAdmitted, hliteral]
  | group _ ih =>
    rw [List.forall_mem_cons, List.forall_mem_append]
    exact ⟨rfl, ih, by simp [Token.isAdmitted]⟩
  | atom _ ih => exact ih
  | star _ ih =>
    rw [List.forall_mem_append]
    exact ⟨ih, by simp [Token.isAdmitted]⟩
  | repetition _ ih => exact ih
  | juxtaposition _ _ ihLeft ihRight => exact List.forall_mem_append.2 ⟨ihLeft, ihRight⟩
  | concat _ _ ihLeft ihRight =>
    rw [List.forall_mem_append, List.forall_mem_cons]
    exact ⟨ihLeft, rfl, ihRight⟩
  | sequence _ ih => exact ih
  | alternation _ _ ihLeft ihRight =>
    rw [List.forall_mem_append, List.forall_mem_cons]
    exact ⟨ihLeft, rfl, ihRight⟩

section Written

open Token

/-- The characters that tokens are written with. -/
def written (tokens : List Token) : List Char :=
  tokens.flatMap fun token => if token.implicit then [] else token.text.toList

theorem written_append (left right : List Token) :
    written (left ++ right) = written left ++ written right :=
  List.flatMap_append

theorem written_cons (token : Token) (rest : List Token) :
    written (token :: rest) = written [token] ++ written rest :=
  written_append [token] rest

theorem written_of_explicit {token : Token} (hexplicit : token.implicit = false) :
    written [token] = token.text.toList := by
  simp [written, hexplicit]

theorem explicit_of_role {token : Token} (hlegible : token.Legible)
    (hrole : token.role ≠ .operator .concat) : token.implicit = false := by
  by_contra himplicit
  rw [Bool.not_eq_false] at himplicit
  rw [Legible, himplicit, if_pos rfl, ← role_eq_concat_iff] at hlegible
  exact hrole hlegible

theorem written_sign {sign : Token} {text : String} (hlegible : sign.Legible)
    (htext : sign.text = text) (hother : text ≠ concatSign) : written [sign] = text.toList := by
  have hrole : sign.role ≠ .operator .concat := by
    rwa [Ne, role_eq_concat_iff, htext]
  rw [written_of_explicit (explicit_of_role hlegible hrole), htext]

/-- What a phrase is written with is derived. -/
theorem Phrase.derives {level : Level} {tokens : List Token} {regex : Regex}
    (hphrase : Phrase level tokens regex) (hlegible : ∀ token ∈ tokens, token.Legible) :
    Derives level (written tokens) regex := by
  induction hphrase with
  | @operand token hrole =>
    have htoken : token.Legible := hlegible token List.mem_cons_self
    have hexplicit := explicit_of_role htoken (by simp [hrole])
    have hliteral := htoken.isLiteral_iff.2 hrole
    rw [Legible, hexplicit, if_neg Bool.false_ne_true] at htoken
    obtain ⟨character, -, htext⟩ := htoken
    rw [Token.isLiteral, htext, isLiteral_toString] at hliteral
    have hwritten : character.toString.toList = [character] := by simp
    rw [written_of_explicit hexplicit, htext, hwritten]
    exact .literal hliteral
  | @group opening closing tokens regex hopening hclosing _ ih =>
    rw [List.forall_mem_cons, List.forall_mem_append, List.forall_mem_singleton] at hlegible
    rw [written_cons, written_append,
      written_sign hlegible.1 (role_eq_opening_iff.1 hopening) (by decide),
      written_sign hlegible.2.2 (role_eq_closing_iff.1 hclosing) (by decide)]
    exact .group (ih hlegible.2.1)
  | atom _ ih => exact .atom (ih hlegible)
  | @star sign tokens regex hsign _ ih =>
    rw [List.forall_mem_append, List.forall_mem_singleton] at hlegible
    rw [written_append, written_sign hlegible.2 (role_eq_star_iff.1 hsign) (by decide)]
    exact .star (ih hlegible.1)
  | repetition _ ih => exact .repetition (ih hlegible)
  | @concat sign before after left right hsign _ _ ihLeft ihRight =>
    rw [List.forall_mem_append, List.forall_mem_cons] at hlegible
    rw [written_append, written_cons]
    cases himplicit : sign.implicit with
    | true =>
      have hnone : written [sign] = [] := by simp [written, himplicit]
      rw [hnone]
      exact .juxtaposition (ihLeft hlegible.1) (ihRight hlegible.2.2)
    | false =>
      rw [written_of_explicit himplicit, role_eq_concat_iff.1 hsign]
      exact .concat (ihLeft hlegible.1) (ihRight hlegible.2.2)
  | sequence _ ih => exact .sequence (ih hlegible)
  | @alternation sign before after left right hsign _ _ ihLeft ihRight =>
    rw [List.forall_mem_append, List.forall_mem_cons] at hlegible
    rw [written_append, written_cons,
      written_sign hlegible.2.1 (role_eq_alternation_iff.1 hsign) (by decide)]
    exact .alternation (ihLeft hlegible.1) (ihRight hlegible.2.2)

end Written

section Bounded

open Token

/-- Tokens that an operand may start with and end with. -/
structure Bounded (tokens : List Token) : Prop where
  starts : ∃ first rest, tokens = first :: rest ∧ first.startsOperand
  ends : ∃ init last, tokens = init ++ [last] ∧ last.endsOperand

theorem Bounded.joined_append {left right : List Token} (hleft : Bounded left)
    (hright : Bounded right) :
    ∃ sign, sign.role = .operator .concat ∧
      joined (left ++ right) = joined left ++ sign :: joined right := by
  obtain ⟨init, last, rfl, hlast⟩ := hleft.ends
  obtain ⟨first, rest, rfl, hfirst⟩ := hright.starts
  refine ⟨⟨concatSign, first.position, true⟩, rfl, ?_⟩
  have hgap : gap last first = [⟨concatSign, first.position, true⟩] := by
    rw [gap, hlast, hfirst]
    rfl
  rw [List.append_assoc, List.singleton_append, Token.joined_append, hgap, List.append_assoc,
    List.singleton_append]

theorem Bounded.joined_append_sign {left right : List Token} {sign : Token} (hleft : Bounded left)
    (hstarts : sign.startsOperand = false) :
    joined (left ++ sign :: right) = joined left ++ joined (sign :: right) := by
  obtain ⟨init, last, rfl, -⟩ := hleft.ends
  have hgap : gap last sign = [] := by
    rw [gap, hstarts, Bool.and_false]
    rfl
  rw [List.append_assoc, List.singleton_append, Token.joined_append, hgap, List.append_nil]

theorem Bounded.joined_sign_cons {right : List Token} {sign : Token} (hright : Bounded right)
    (hends : sign.endsOperand = false) : joined (sign :: right) = sign :: joined right := by
  obtain ⟨first, rest, rfl, -⟩ := hright.starts
  have hgap : gap sign first = [] := by
    rw [gap, hends, Bool.false_and]
    rfl
  rw [joined_cons_cons, hgap, List.nil_append]

theorem Bounded.joined_sign {left right : List Token} {sign : Token} (hleft : Bounded left)
    (hright : Bounded right) (hstarts : sign.startsOperand = false)
    (hends : sign.endsOperand = false) :
    joined (left ++ sign :: right) = joined left ++ sign :: joined right := by
  rw [hleft.joined_append_sign hstarts, hright.joined_sign_cons hends]

theorem Bounded.snoc {tokens : List Token} {last : Token} (htokens : Bounded tokens)
    (hlast : last.endsOperand) : Bounded (tokens ++ [last]) := by
  obtain ⟨first, rest, rfl, hfirst⟩ := htokens.starts
  exact ⟨⟨first, rest ++ [last], rfl, hfirst⟩, ⟨first :: rest, last, rfl, hlast⟩⟩

theorem Bounded.append {left right : List Token} (hleft : Bounded left) (hright : Bounded right)
    (between : List Token) : Bounded (left ++ (between ++ right)) := by
  obtain ⟨first, rest, rfl, hfirst⟩ := hleft.starts
  obtain ⟨init, last, rfl, hlast⟩ := hright.ends
  exact ⟨⟨first, _, rfl, hfirst⟩, ⟨first :: rest ++ (between ++ init), last, by simp, hlast⟩⟩

theorem starts_sign {sign : Token} {text : String} (htext : sign.text = text) :
    sign.startsOperand = (RegexAutomata.isLiteral text || text == "(") := by
  rw [startsOperand, Token.isLiteral, htext]

theorem ends_sign {sign : Token} {text : String} (htext : sign.text = text) :
    sign.endsOperand = (RegexAutomata.isLiteral text || text == ")" || text == "*") := by
  rw [endsOperand, Token.isLiteral, htext]

/-- A character inside a text is the text of a token of its own. -/
theorem exists_split {tokens : List Token} {before after : List Char} {character : Char}
    (htokens : tokens.map Token.text = (before ++ character :: after).map Char.toString) :
    ∃ first sign second, tokens = first ++ sign :: second ∧
      first.map Token.text = before.map Char.toString ∧ sign.text = character.toString ∧
      second.map Token.text = after.map Char.toString := by
  rw [List.map_append, List.map_cons] at htokens
  obtain ⟨first, others, rfl, hfirst, hothers⟩ := List.map_eq_append_iff.1 htokens
  obtain ⟨sign, second, rfl, hsign, hsecond⟩ := List.map_eq_cons_iff.1 hothers
  exact ⟨first, sign, second, rfl, hfirst, hsign, hsecond⟩

/-- The joined tokens of a derived text are a phrase. -/
theorem Derives.phrase {level : Level} {text : List Char} {regex : Regex}
    (hderives : Derives level text regex) {tokens : List Token}
    (htokens : tokens.map Token.text = text.map Char.toString) :
    Bounded tokens ∧ Phrase level (joined tokens) regex := by
  induction hderives generalizing tokens with
  | @literal character hliteral =>
    obtain ⟨token, rest, rfl, htext, hrest⟩ := List.map_eq_cons_iff.1 htokens
    obtain rfl := List.map_eq_nil_iff.1 hrest
    have htoken : token.isLiteral := by
      rw [Token.isLiteral, htext, isLiteral_toString, hliteral]
    refine ⟨⟨⟨token, [], rfl, ?_⟩, ⟨[], token, rfl, ?_⟩⟩, ?_⟩
    · rw [startsOperand, htoken, Bool.true_or]
    · rw [endsOperand, htoken, Bool.true_or, Bool.true_or]
    · rw [← htext]
      exact .operand (role_of_isLiteral htoken)
  | @group text regex _ ih =>
    rw [List.map_cons] at htokens
    obtain ⟨opening, rest, rfl, hopening, hrest⟩ := List.map_eq_cons_iff.1 htokens
    obtain ⟨inner, closing, others, rfl, hinner, hclosing, hothers⟩ := exists_split hrest
    obtain rfl := List.map_eq_nil_iff.1 hothers
    obtain ⟨hbounded, hphrase⟩ := ih hinner
    have hinnerEnds := hbounded.snoc (show closing.endsOperand by rw [ends_sign hclosing]; rfl)
    have hjoined : joined (opening :: (inner ++ [closing])) =
        opening :: (joined inner ++ [closing]) := by
      rw [hinnerEnds.joined_sign_cons (by rw [ends_sign hopening]; rfl),
        hbounded.joined_append_sign (by rw [starts_sign hclosing]; rfl), joined]
    obtain ⟨init, last, hlastToken, hlastEnds⟩ := hinnerEnds.ends
    refine ⟨⟨⟨opening, _, rfl, by rw [starts_sign hopening]; rfl⟩,
      ⟨opening :: init, last, by rw [hlastToken, List.cons_append], hlastEnds⟩⟩, ?_⟩
    rw [hjoined]
    exact .group (role_eq_opening_iff.2 hopening) (role_eq_closing_iff.2 hclosing) hphrase
  | atom _ ih => exact ⟨(ih htokens).1, .atom (ih htokens).2⟩
  | @star text regex _ ih =>
    obtain ⟨inner, sign, others, rfl, hinner, hsign, hothers⟩ := exists_split htokens
    obtain rfl := List.map_eq_nil_iff.1 hothers
    obtain ⟨hbounded, hphrase⟩ := ih hinner
    refine ⟨hbounded.snoc (by rw [ends_sign hsign]; rfl), ?_⟩
    rw [hbounded.joined_append_sign (by rw [starts_sign hsign]; rfl), joined]
    exact .star (role_eq_star_iff.2 hsign) hphrase
  | repetition _ ih => exact ⟨(ih htokens).1, .repetition (ih htokens).2⟩
  | @juxtaposition before after left right _ _ ihLeft ihRight =>
    rw [List.map_append] at htokens
    obtain ⟨first, second, rfl, hfirst, hsecond⟩ := List.map_eq_append_iff.1 htokens
    obtain ⟨hleft, hleftPhrase⟩ := ihLeft hfirst
    obtain ⟨hright, hrightPhrase⟩ := ihRight hsecond
    obtain ⟨sign, hsign, hjoined⟩ := hleft.joined_append hright
    rw [hjoined]
    exact ⟨hleft.append hright [], .concat hsign hleftPhrase hrightPhrase⟩
  | @concat before after left right _ _ ihLeft ihRight =>
    obtain ⟨first, sign, second, rfl, hfirst, hsign, hsecond⟩ := exists_split htokens
    obtain ⟨hleft, hleftPhrase⟩ := ihLeft hfirst
    obtain ⟨hright, hrightPhrase⟩ := ihRight hsecond
    refine ⟨hleft.append hright [sign], ?_⟩
    rw [hleft.joined_sign hright (by rw [starts_sign hsign]; rfl) (by rw [ends_sign hsign]; rfl)]
    exact .concat (role_eq_concat_iff.2 hsign) hleftPhrase hrightPhrase
  | sequence _ ih => exact ⟨(ih htokens).1, .sequence (ih htokens).2⟩
  | @alternation before after left right _ _ ihLeft ihRight =>
    obtain ⟨first, sign, second, rfl, hfirst, hsign, hsecond⟩ := exists_split htokens
    obtain ⟨hleft, hleftPhrase⟩ := ihLeft hfirst
    obtain ⟨hright, hrightPhrase⟩ := ihRight hsecond
    refine ⟨hleft.append hright [sign], ?_⟩
    rw [hleft.joined_sign hright (by rw [starts_sign hsign]; rfl) (by rw [ends_sign hsign]; rfl)]
    exact .alternation (role_eq_alternation_iff.2 hsign) hleftPhrase hrightPhrase

end Bounded

end RegexAutomata.Regex
