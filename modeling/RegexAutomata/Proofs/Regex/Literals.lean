import RegexAutomata.Nfa.Basic
import RegexAutomata.Proofs.Regex.Language
import RegexAutomata.Proofs.Regex.Parse

/-!
# What a tree is made of that was read from a text

Every node of such a tree has a meaning, and its characters are single letters or digits.  So none
of them is the symbol that reads nothing.
-/

namespace RegexAutomata

/-- The text is a single ASCII letter or digit. -/
def IsLiteral (value : String) : Prop :=
  ∃ character : Char, character.isAlphanum ∧ value = String.singleton character

namespace Regex

variable {level : Level} {text : List Char} {regex : Regex}

/-- Reading a text makes no unknown nodes. -/
theorem Derives.isKnown (hderives : Derives level text regex) : regex.isKnown := by
  induction hderives with
  | literal => rfl
  | group _ ih => exact ih
  | atom _ ih => exact ih
  | star _ ih => exact ih
  | repetition _ ih => exact ih
  | juxtaposition _ _ ihLeft ihRight => rw [Regex.isKnown, ihLeft, ihRight]; rfl
  | concat _ _ ihLeft ihRight => rw [Regex.isKnown, ihLeft, ihRight]; rfl
  | sequence _ ih => exact ih
  | alternation _ _ ihLeft ihRight => rw [Regex.isKnown, ihLeft, ihRight]; rfl

theorem Derives.isLiteral (hderives : Derives level text regex) :
    ∀ value ∈ regex.values, IsLiteral value := by
  induction hderives with
  | literal hliteral => exact List.forall_mem_singleton.2 ⟨_, hliteral, rfl⟩
  | group _ ih => exact ih
  | atom _ ih => exact ih
  | star _ ih => exact ih
  | repetition _ ih => exact ih
  | juxtaposition _ _ ihLeft ihRight => exact List.forall_mem_append.2 ⟨ihLeft, ihRight⟩
  | concat _ _ ihLeft ihRight => exact List.forall_mem_append.2 ⟨ihLeft, ihRight⟩
  | sequence _ ih => exact ih
  | alternation _ _ ihLeft ihRight => exact List.forall_mem_append.2 ⟨ihLeft, ihRight⟩

theorem derives_of_parse {text : String} (hparse : parse text = .ok regex) :
    Derives .alternatives text.toList regex := by
  obtain ⟨other, hother⟩ := exists_derives_of_parse hparse
  obtain rfl : other = regex := Except.ok.inj ((parse_of_derives hother).symm.trans hparse)
  exact hother

theorem not_isLiteral_epsilon : ¬ IsLiteral epsilon := by
  rintro ⟨character, hliteral, hequal⟩
  obtain rfl : 'ε' = character := by
    have htext := congrArg String.toList hequal
    simpa [epsilon] using htext
  exact absurd hliteral (by decide)

theorem Derives.epsilon_not_mem (hderives : Derives level text regex) : epsilon ∉ regex.values :=
  fun hsilent => not_isLiteral_epsilon (hderives.isLiteral _ hsilent)

end Regex
end RegexAutomata
