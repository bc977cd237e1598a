import RegexAutomata.Proofs.Regex.Counting
import RegexAutomata.Proofs.Regex.Shunting

/-!
# Reading a regular expression follows its grammar

A text is read as a tree exactly if the grammar derives it for this tree, and every text that it
does not derive is an error.
-/

namespace RegexAutomata.Regex

open Token

theorem legible_of_admitted {character : Char} {token : Token} (hadmitted : isAdmitted character)
    (htext : token.text = character.toString) (hwritten : token.implicit = false) :
    token.Legible := by
  rw [Legible, hwritten, if_neg Bool.false_ne_true]
  exact ⟨character, hadmitted, htext⟩

/-- Scanned tokens are legible and say what was written. -/
theorem scan_eq_ok {text : String} {tokens : List Token} (hscan : scan text = .ok tokens) :
    tokens.map Token.text = text.toList.map Char.toString ∧
      (∀ token ∈ tokens, token.implicit = false) ∧ ∀ token ∈ tokens, token.Legible := by
  obtain ⟨hadmitted, htexts, hwritten⟩ := scanFrom_eq_ok hscan
  refine ⟨htexts, hwritten, fun token htoken => ?_⟩
  have hmem : token.text ∈ text.toList.map Char.toString := by
    rw [← htexts]
    exact List.mem_map_of_mem htoken
  obtain ⟨character, hcharacter, htext⟩ := List.mem_map.1 hmem
  exact legible_of_admitted (hadmitted character hcharacter) htext.symm (hwritten token htoken)

theorem written_scanned {text : List Char} {tokens : List Token}
    (htexts : tokens.map Token.text = text.map Char.toString)
    (hwritten : ∀ token ∈ tokens, token.implicit = false) : written tokens = text := by
  induction text generalizing tokens with
  | nil =>
    rw [List.map_eq_nil_iff.1 htexts]
    rfl
  | cons character rest ih =>
    obtain ⟨token, others, rfl, htext, hothers⟩ := List.map_eq_cons_iff.1 htexts
    rw [List.forall_mem_cons] at hwritten
    rw [written_cons, written_of_explicit hwritten.1, htext, ih hothers hwritten.2]
    simp

/-- A concatenation that is not written adds nothing to the text. -/
theorem written_joined {text : List Char} {tokens : List Token}
    (htexts : tokens.map Token.text = text.map Char.toString)
    (hwritten : ∀ token ∈ tokens, token.implicit = false) : written (joined tokens) = text := by
  have hfilter : ∀ row : List Token,
      written (row.filter fun token => !token.implicit) = written row := by
    intro row
    induction row with
    | nil => rfl
    | cons token rest ih =>
      cases himplicit : token.implicit with
      | true =>
        rw [List.filter_cons_of_neg (by simp [himplicit]), ih, written_cons]
        simp [written, himplicit]
      | false =>
        rw [List.filter_cons_of_pos (by simp [himplicit]), written_cons, ih, ← written_cons]
  rw [← hfilter, filter_joined hwritten]
  exact written_scanned htexts hwritten

theorem reduce_eq_ok {ordered : List Token} {finish : Int} {regex : Regex}
    (hregex : ofPostOrder ordered finish = .ok regex) : reduce [] ordered = .ok [regex] := by
  rw [ofPostOrder] at hregex
  cases hreduce : reduce [] ordered with
  | error error => simp [hreduce, bind, Except.bind] at hregex
  | ok final =>
    simp only [hreduce, bind, Except.bind] at hregex
    split at hregex <;> cases hregex
    rfl

/-- What is read is a phrase. -/
theorem isPhrase_of_ofPostOrder {tokens ordered : List Token} {regex : Regex} {finish : Int}
    (hlegible : ∀ token ∈ tokens, token.Legible) (hapart : Apart tokens)
    (hordered : postOrder tokens = .ok ordered) (hregex : ofPostOrder ordered finish = .ok regex) :
    IsPhrase .alternatives tokens := by
  obtain ⟨-, hparenthesis, hkept⟩ := postOrder_eq_ok hordered
  have hweigh : weigh ordered = 1 := by
    have hlength := length_of_reduce hparenthesis (reduce_eq_ok hregex)
    simpa using hlength.symm
  have hcount : weigh tokens = allowance true := hkept.symm.trans hweigh
  have hturns := (hapart.fits hlegible (by simp)).takesTurns hcount
  exact (isPhrase_of_takesTurns (closes_of_postOrderFrom hordered) (.outside .start)).1 hturns

theorem parse_eq_ok {text : String} {regex : Regex} (hparse : parse text = .ok regex) :
    ∃ tokens ordered, scan text = .ok tokens ∧ postOrder (joined tokens) = .ok ordered ∧
      ofPostOrder ordered text.length = .ok regex := by
  rw [parse] at hparse
  cases hscan : scan text with
  | error error => simp [hscan, bind, Except.bind] at hparse
  | ok tokens =>
    cases hordered : postOrder (joined tokens) with
    | error error => simp [hscan, hordered, bind, Except.bind] at hparse
    | ok ordered =>
      simp only [hscan, hordered, bind, Except.bind] at hparse
      exact ⟨tokens, ordered, rfl, hordered, hparse⟩

theorem parse_of_derives {text : String} {regex : Regex}
    (hderives : Derives .alternatives text.toList regex) : parse text = .ok regex := by
  obtain ⟨tokens, hscan⟩ := scanFrom_of_admitted hderives.isAdmitted 0
  obtain ⟨htexts, -, -⟩ := scan_eq_ok hscan
  obtain ⟨ordered, hordered, hregex⟩ := (hderives.phrase htexts).2.ofPostOrder_eq text.length
  have hscanned : scan text = .ok tokens := hscan
  rw [parse, hscanned]
  simp only [hordered, hregex, bind, Except.bind]

theorem exists_derives_of_parse {text : String} {regex : Regex} (hparse : parse text = .ok regex) :
    ∃ other, Derives .alternatives text.toList other := by
  obtain ⟨tokens, ordered, hscan, hordered, hregex⟩ := parse_eq_ok hparse
  obtain ⟨htexts, hwritten, hlegible⟩ := scan_eq_ok hscan
  have hjoined := legible_joined hlegible
  obtain ⟨other, hphrase⟩ :=
    isPhrase_of_ofPostOrder hjoined (isChain_joined tokens) hordered hregex
  have hderives := hphrase.derives hjoined
  rw [written_joined htexts hwritten] at hderives
  exact ⟨other, hderives⟩

/-- Reading follows the grammar: it returns a tree for exactly those texts that are derived for the
tree, and an error for exactly those that are not derived at all. -/
theorem parse_iff_derives (text : String) :
    (∀ regex, parse text = .ok regex ↔ Derives .alternatives text.toList regex) ∧
      ((∃ error, parse text = .error error) ↔
        ∀ regex, ¬ Derives .alternatives text.toList regex) := by
  have htree : ∀ regex, parse text = .ok regex ↔ Derives .alternatives text.toList regex := by
    intro regex
    refine ⟨fun hparse => ?_, parse_of_derives⟩
    obtain ⟨other, hother⟩ := exists_derives_of_parse hparse
    rw [parse_of_derives hother] at hparse
    cases hparse
    exact hother
  refine ⟨htree, ?_⟩
  cases hparse : parse text with
  | error error =>
    refine ⟨fun _ regex hderives => ?_, fun _ => ⟨error, rfl⟩⟩
    rw [parse_of_derives hderives] at hparse
    cases hparse
  | ok regex =>
    constructor
    · rintro ⟨error, herror⟩
      cases herror
    · intro hnone
      exact absurd ((htree regex).1 hparse) (hnone regex)

end RegexAutomata.Regex
