import RegexAutomata.Proofs.Collection.Traversal
import RegexAutomata.Proofs.Regex.Placement

/-!
# Concatenation is written or left out

Tokens have places in a text, and some of them are not written.  Places show in errors, but they
have no part in what a row of tokens is read as, or in what is wrong with it: both depend on the
texts of the tokens.  A concatenation that is left out is put in between the same neighbours between
which it may be written, so that the one text is read like the other.
-/

namespace RegexAutomata

namespace Token

def plain (token : Token) : Token :=
  { text := token.text, position := 0 }

theorem map_plain_map_plain (tokens : List Token) :
    (tokens.map plain).map plain = tokens.map plain := by
  rw [List.map_map]
  rfl

/-- The texts of a row of tokens, or else the fault that there is. -/
def blind (result : Except SyntaxError (List Token)) : Except SyntaxFault (List Token) :=
  (result.mapError SyntaxError.fault).map (List.map plain)

section Blind

variable (result : Except SyntaxError (List Token))

theorem blind_append (out : List Token) :
    blind (do let rest ← result; return out ++ rest) = (blind result).map (out.map plain ++ ·) := by
  cases result with
  | error error => rfl
  | ok tokens => exact congrArg Except.ok List.map_append

theorem blind_cons (token : Token) :
    blind (do let rest ← result; return token :: rest) = (blind result).map (token.plain :: ·) := by
  cases result <;> rfl

/-- A step that depends on texts only has no need of places. -/
theorem blind_bind {α : Type} {read : List Token → Except SyntaxError α}
    {reread : List Token → Except SyntaxFault α}
    (hread : ∀ tokens, reread (tokens.map plain) = (read tokens).mapError SyntaxError.fault) :
    (result >>= read).mapError SyntaxError.fault = blind result >>= reread := by
  cases result with
  | error error => rfl
  | ok tokens => exact (hread tokens).symm

end Blind

section Joined

theorem gap_plain (left right : Token) :
    (gap left.plain right.plain).map plain = (gap left right).map plain := by
  have hends : left.plain.endsOperand = left.endsOperand := rfl
  have hstarts : right.plain.startsOperand = right.startsOperand := rfl
  rw [gap, gap, hends, hstarts]
  split <;> rfl

theorem joined_plain (tokens : List Token) :
    (joined (tokens.map plain)).map plain = (joined tokens).map plain := by
  induction tokens with
  | nil => rfl
  | cons token rest ih =>
    cases rest with
    | nil => rfl
    | cons next rest =>
      rw [List.map_cons, List.map_cons, joined_cons_cons, joined_cons_cons, List.map_cons,
        List.map_cons, List.map_append, List.map_append, gap_plain, ← List.map_cons, ih]
      rfl

/-- What is put in between two neighbours is what may be written there. -/
theorem joined_append_sign {before after : List Token} {last sign first : Token}
    (hlast : last.endsOperand) (hfirst : first.startsOperand) (hsign : sign.text = concatSign) :
    (joined (before ++ last :: first :: after)).map plain =
      (joined (before ++ last :: sign :: first :: after)).map plain := by
  have hstarts : sign.startsOperand = false := by
    rw [startsOperand, isLiteral, hsign]
    rfl
  have hends : sign.endsOperand = false := by
    rw [endsOperand, isLiteral, hsign]
    rfl
  have hplain : plain ⟨concatSign, first.position, true⟩ = sign.plain := by
    rw [plain, plain, hsign]
  have hbefore : gap last sign = [] := by rw [gap, hstarts, Bool.and_false]; rfl
  have hafter : gap sign first = [] := by rw [gap, hends, Bool.false_and]; rfl
  have hbetween : gap last first = [⟨concatSign, first.position, true⟩] := by
    rw [gap, hlast, hfirst]
    rfl
  rw [joined_append, joined_append, joined_cons_cons, hbefore, hafter, hbetween, List.append_nil,
    List.nil_append, List.append_assoc, List.singleton_append, List.map_append, List.map_append,
    List.map_cons, List.map_cons, hplain]

end Joined

section Order

theorem blind_release (waiting : List Token) :
    blind (release (waiting.map plain)) = blind (release waiting) := by
  induction waiting with
  | nil => rfl
  | cons token rest ih =>
    have hopening : token.plain.isOpening = token.isOpening := rfl
    rw [List.map_cons, release, release, hopening]
    split
    · rfl
    · rw [blind_cons, blind_cons, ih]
      rfl

/-- Ordering does not look at places. -/
theorem blind_postOrderFrom (waiting tokens : List Token) :
    blind (postOrderFrom (waiting.map plain) (tokens.map plain)) =
      blind (postOrderFrom waiting tokens) := by
  induction tokens generalizing waiting with
  | nil => exact blind_release waiting
  | cons token rest ih =>
    have hrole : token.plain.role = token.role := rfl
    rw [List.map_cons, postOrderFrom, postOrderFrom, hrole]
    cases token.role with
    | opening => exact ih (token :: waiting)
    | closing =>
      have hopening : (fun other => !isOpening other) ∘ plain = fun other => !isOpening other := rfl
      dsimp only
      rw [List.dropWhile_map, List.takeWhile_map, hopening]
      cases waiting.dropWhile fun other => !isOpening other with
      | nil => rfl
      | cons opening below =>
        rw [List.map_cons]
        dsimp only
        rw [blind_append, blind_append, ih, map_plain_map_plain]
    | operator operator =>
      have hyields : yieldsTo operator ∘ plain = yieldsTo operator := rfl
      dsimp only
      rw [List.dropWhile_map, List.takeWhile_map, hyields]
      have hrest := ih (token :: waiting.dropWhile (yieldsTo operator))
      rw [List.map_cons] at hrest
      rw [blind_append, blind_append, hrest, map_plain_map_plain]
    | operand =>
      dsimp only
      rw [blind_cons, blind_cons, ih]
      rfl

theorem blind_postOrder {left right : List Token} (hsame : left.map plain = right.map plain) :
    blind (postOrder left) = blind (postOrder right) := by
  have hleft := blind_postOrderFrom [] left
  have hright := blind_postOrderFrom [] right
  rw [hsame] at hleft
  exact hleft.symm.trans hright

end Order

section Scan

def ofChar (character : Char) : Token :=
  { text := character.toString, position := 0 }

/-- Every character is a token, or the first one that may not stand there is at fault. -/
theorem blind_scanFrom (start : Nat) (characters : List Char) :
    blind (scanFrom start characters) =
      match characters.find? fun character => !isAdmitted character with
      | some foreign => .error (.foreignCharacter foreign.toString)
      | none => .ok (characters.map ofChar) := by
  induction characters generalizing start with
  | nil => rfl
  | cons character rest ih =>
    rw [scanFrom, List.find?_cons]
    cases isAdmitted character with
    | false => rfl
    | true =>
      rw [if_pos rfl, blind_cons, ih]
      cases rest.find? fun character => !isAdmitted character <;> rfl

end Scan

end Token

namespace Regex

open Token

/-- What a row of tokens is read as does not depend on their places, nor does the fault in it. -/
theorem reduce_plain (stack : List Regex) (tokens : List Token) :
    (reduce stack (tokens.map plain)).mapError SyntaxError.fault =
      (reduce stack tokens).mapError SyntaxError.fault := by
  induction tokens generalizing stack with
  | nil => rfl
  | cons token rest ih =>
    have hrole : token.plain.role = token.role := rfl
    rw [List.map_cons, reduce.eq_def stack (token.plain :: _), reduce.eq_def stack (token :: rest)]
    dsimp only
    rw [hrole]
    split
    · exact ih _
    · exact ih _
    · exact ih _
    · rfl
    · exact ih _

theorem ofPostOrder_plain (finish other : Int) (ordered : List Token) :
    (ofPostOrder (ordered.map plain) other).mapError SyntaxError.fault =
      (ofPostOrder ordered finish).mapError SyntaxError.fault := by
  rw [ofPostOrder, ofPostOrder, Traversal.mapError_bind, Traversal.mapError_bind, reduce_plain]
  refine congrArg _ (funext fun final => ?_)
  split <;> rfl

/-- What a row of tokens is read as, or what is wrong with it. -/
def reading (tokens : List Token) : Except SyntaxFault Regex := do
  let ordered ← blind (postOrder (joined tokens))
  (ofPostOrder ordered 0).mapError SyntaxError.fault

theorem reading_congr {left right : List Token}
    (hsame : (joined left).map plain = (joined right).map plain) :
    reading left = reading right := by
  rw [reading, reading, blind_postOrder hsame]

/-- What a text is read as depends on its tokens without their places, and so does what is wrong
with it. -/
theorem mapError_parse (text : String) :
    (parse text).mapError SyntaxError.fault = blind (scan text) >>= reading := by
  refine blind_bind (scan text) fun tokens => ?_
  rw [reading_congr (joined_plain tokens)]
  exact (blind_bind _ (ofPostOrder_plain text.length 0)).symm

section Dot

variable {u v : String} {last first : Char}

/-- Both texts are refused for the same fault, or both are split into their characters. -/
theorem blind_scan_append_dot (u v : String) :
    (∃ fault, blind (scan (u ++ v)) = .error fault ∧ blind (scan (u ++ "." ++ v)) = .error fault) ∨
      (blind (scan (u ++ v)) = .ok ((u.toList ++ v.toList).map ofChar) ∧
        blind (scan (u ++ "." ++ v)) = .ok ((u.toList ++ '.' :: v.toList).map ofChar)) := by
  have htexts : (u ++ v).toList = u.toList ++ v.toList ∧
      (u ++ "." ++ v).toList = u.toList ++ '.' :: v.toList := by simp
  have hfind : (u.toList ++ '.' :: v.toList).find? (fun character => !isAdmitted character) =
      (u.toList ++ v.toList).find? fun character => !isAdmitted character := by
    rw [List.find?_append, List.find?_append, List.find?_cons_of_neg (by decide)]
  rw [scan, scan, blind_scanFrom, blind_scanFrom, htexts.1, htexts.2, hfind]
  split
  · exact Or.inl ⟨_, rfl, rfl⟩
  · exact Or.inr ⟨rfl, rfl⟩

/-- Between an operand and the next one, the sign of concatenation changes neither the tree that is
read nor what is found to be wrong. -/
theorem mapError_parse_append_dot (hu : u.toList.getLast? = some last)
    (hlast : last.isAlphanum ∨ last = ')' ∨ last = '*') (hv : v.toList.head? = some first)
    (hfirst : first.isAlphanum ∨ first = '(') :
    (parse (u ++ v)).mapError SyntaxError.fault =
      (parse (u ++ "." ++ v)).mapError SyntaxError.fault := by
  rw [mapError_parse, mapError_parse]
  rcases blind_scan_append_dot u v with ⟨fault, himplied, hwritten⟩ | ⟨himplied, hwritten⟩
  · rw [himplied, hwritten]
  · rw [himplied, hwritten]
    refine reading_congr ?_
    obtain ⟨before, hbefore⟩ := List.getLast?_eq_some_iff.1 hu
    obtain ⟨after, hafter⟩ := List.head?_eq_some_iff.1 hv
    have hends : (ofChar last).endsOperand := (endsOperand_iff rfl).2 hlast
    have hstarts : (ofChar first).startsOperand := (startsOperand_iff rfl).2 hfirst
    rw [hbefore, hafter, List.append_assoc, List.append_assoc, List.map_append, List.map_append,
      List.map_append, List.map_append]
    have hsign : (ofChar '.').text = concatSign := rfl
    exact joined_append_sign hends hstarts hsign

/-- Where an operand ends and the next one starts, concatenation may be written or left out: both
texts are read as the same tree, or both are refused with the same message.  Nothing is asked of
what stands around the place. -/
theorem parse_append_dot (hu : u.toList.getLast? = some last)
    (hlast : last.isAlphanum ∨ last = ')' ∨ last = '*') (hv : v.toList.head? = some first)
    (hfirst : first.isAlphanum ∨ first = '(') :
    (∃ regex, parse (u ++ v) = .ok regex ∧ parse (u ++ "." ++ v) = .ok regex) ∨
      ∃ error other, parse (u ++ v) = .error error ∧ parse (u ++ "." ++ v) = .error other ∧
        error.diagnostic.message = other.diagnostic.message := by
  have hsame := mapError_parse_append_dot hu hlast hv hfirst
  cases himplied : parse (u ++ v) with
  | ok regex =>
    rw [himplied] at hsame
    exact Or.inl ⟨regex, rfl, Traversal.mapError_eq_ok_iff.1 hsame.symm⟩
  | error error =>
    cases hwritten : parse (u ++ "." ++ v) with
    | ok regex =>
      rw [himplied, hwritten] at hsame
      cases hsame
    | error other =>
      rw [himplied, hwritten] at hsame
      have hfault : error.fault = other.fault := Except.error.inj hsame
      exact Or.inr ⟨error, other, rfl, rfl, congrArg SyntaxFault.message hfault⟩

/-- Inside a group, and at the end of a group that was never opened. -/
theorem parse_append_dot_group :
    ((∃ regex, parse ("(a|b*" ++ "(c))") = .ok regex ∧
        parse ("(a|b*" ++ "." ++ "(c))") = .ok regex) ∨
      ∃ error other, parse ("(a|b*" ++ "(c))") = .error error ∧
        parse ("(a|b*" ++ "." ++ "(c))") = .error other ∧
        error.diagnostic.message = other.diagnostic.message) ∧
    ((∃ regex, parse ("|a)" ++ "b") = .ok regex ∧ parse ("|a)" ++ "." ++ "b") = .ok regex) ∨
      ∃ error other, parse ("|a)" ++ "b") = .error error ∧
        parse ("|a)" ++ "." ++ "b") = .error other ∧
        error.diagnostic.message = other.diagnostic.message) :=
  ⟨@parse_append_dot "(a|b*" "(c))" '*' '(' (by decide) (by decide) (by decide) (by decide),
    @parse_append_dot "|a)" "b" ')' 'b' (by decide) (by decide) (by decide) (by decide)⟩

end Dot

end Regex
end RegexAutomata
