import RegexAutomata.Graph.Drawing
import RegexAutomata.Proofs.Regex.Literals
import RegexAutomata.Proofs.Text.Decimal
import Std.Data.String.ToNat

/-!
# Statements in a source

Numbers, letters and digits stand in a source as they are, and the signs of operators stand in
quotes.  So where every label of a tree is one of these, each part of a statement ends where a
blank, a bracket or a line feed follows, and the source of a picture shows its statements.
-/

namespace RegexAutomata

namespace Dot

section Names

variable {number left right : Nat} {character : Char}

theorem toNat?_toString (number : Nat) : (toString number).toNat? = some number :=
  Nat.toNat?_repr number

theorem toString_inj : toString left = toString right ↔ left = right := by
  constructor
  · intro hequal
    exact Nat.repr_injective hequal
  · rintro rfl
    rfl

theorem not_mem_toString (hother : character.isDigit = false) :
    character ∉ (toString number).toList := by
  rw [Text.toList_toString]
  exact Text.not_mem_toDigits hother

end Names

section Words

variable {text : String} {characters : List Char} {character : Char}

/-- A text is a word if it is made like an identifier or a numeral and does not spell a keyword in
any case of its letters. -/
theorem isWord_iff : isWord text ↔
    (isIdentifier (withoutLineFeed text.toList) ∨ isNumeral (withoutLineFeed text.toList)) ∧
      text.toList.map Char.toLower ∉ keywords.map String.toList := by
  have hlower : text.toLower.toList = text.toList.map Char.toLower := String.toList_map
  have hinjective : Function.Injective String.toList := fun _ _ => String.toList_injective
  rw [isWord, Bool.and_eq_true, Bool.or_eq_true, Bool.not_eq_true', List.contains_eq_mem,
    decide_eq_false_iff_not, ← hlower, List.mem_map_of_injective hinjective]

theorem quote_of_isWord (hword : isWord text) : quote text = text := by
  rw [quote, hword, Bool.or_true, if_pos rfl]

theorem withoutLineFeed_eq (hfeed : '\n' ∉ characters) :
    withoutLineFeed characters = characters := by
  rw [withoutLineFeed, if_neg]
  intro hlast
  exact hfeed (List.mem_of_getLast? hlast)

theorem isNumeral_of_digits (hsome : characters ≠ [])
    (hdigits : ∀ character ∈ characters, character.isDigit) : isNumeral characters := by
  have hunsigned : isUnsigned characters := by
    rw [isUnsigned, List.takeWhile_eq_self_iff.2 hdigits, List.dropWhile_eq_nil_iff.2 hdigits]
    simpa using hsome
  rw [isNumeral]
  · exact hunsigned
  · rintro rest rfl
    exact absurd (hdigits '-' List.mem_cons_self) (by decide)

theorem toLower_of_isDigit (hdigit : character.isDigit) : character.toLower = character := by
  apply dif_neg
  intro hupper
  rw [Char.isDigit, Bool.and_eq_true, decide_eq_true_iff, decide_eq_true_iff] at hdigit
  exact absurd (UInt32.le_trans hupper.1 hdigit.2) (by decide)

/-- A number is a numeral and no keyword. -/
theorem isWord_toString (number : Nat) : isWord (toString number) := by
  have hdigits : ∀ character ∈ Nat.toDigits 10 number, character.isDigit :=
    fun character => Text.isDigit_of_mem_toDigits
  rw [isWord_iff, withoutLineFeed_eq (not_mem_toString rfl), Text.toList_toString]
  constructor
  · exact Or.inr (isNumeral_of_digits Nat.toDigits_ne_nil hdigits)
  · have hlower : (Nat.toDigits 10 number).map Char.toLower =
        (Nat.toDigits 10 number).map id := by
      apply List.map_congr_left
      intro character hmem
      exact toLower_of_isDigit (hdigits character hmem)
    have hkeywords : ∀ keyword ∈ keywords.map String.toList, ¬ keyword.all Char.isDigit := by
      decide
    intro hkeyword
    rw [hlower, List.map_id] at hkeyword
    apply hkeywords _ hkeyword
    exact List.all_eq_true.2 hdigits

/-- A letter is an identifier, a digit is a numeral, and no keyword has one letter. -/
theorem isWord_of_isLiteral (hliteral : IsLiteral text) : isWord text := by
  obtain ⟨character, hcharacter, rfl⟩ := hliteral
  have hfeed : '\n' ∉ [character] := by
    intro hmem
    rw [← List.mem_singleton.1 hmem] at hcharacter
    exact absurd hcharacter (by decide)
  rw [isWord_iff, String.toList_singleton, withoutLineFeed_eq hfeed]
  constructor
  · rw [Char.isAlphanum, Bool.or_eq_true] at hcharacter
    cases hcharacter with
    | inl halpha =>
      apply Or.inl
      rw [isIdentifier, halpha]
      rfl
    | inr hdigit =>
      apply Or.inr
      apply isNumeral_of_digits (List.cons_ne_nil _ _)
      exact List.forall_mem_singleton.2 hdigit
  · simp [keywords]

end Words

section Parts

variable {left right afterLeft afterRight rest others : List Char} {stop : Char}

/-- A label that is a single letter or digit, or the sign of an operator. -/
def IsPlain (label : String) : Prop :=
  IsLiteral label ∨ ∃ operator : Operator, label = operator.label

theorem not_mem_quote {label : String} (hplain : IsPlain label) : ' ' ∉ (quote label).toList := by
  rcases hplain with hliteral | ⟨operator, rfl⟩
  · rw [quote_of_isWord (isWord_of_isLiteral hliteral)]
    obtain ⟨character, hcharacter, rfl⟩ := hliteral
    rw [String.toList_singleton, List.mem_singleton]
    rintro rfl
    exact absurd hcharacter (by decide)
  · cases operator <;> decide

/-- Without its quotes, a plain label is what it was. -/
theorem filter_quote {label : String} (hplain : IsPlain label) :
    (quote label).toList.filter (· ≠ '"') = label.toList := by
  rcases hplain with hliteral | ⟨operator, rfl⟩
  · rw [quote_of_isWord (isWord_of_isLiteral hliteral)]
    obtain ⟨character, hcharacter, rfl⟩ := hliteral
    apply List.filter_eq_self.2
    intro other hother
    rw [String.toList_singleton, List.mem_singleton] at hother
    rw [decide_eq_true_iff, hother]
    rintro rfl
    exact absurd hcharacter (by decide)
  · cases operator <;> decide

end Parts

section Lines

variable {number other parent child otherParent otherChild : Nat} {label otherLabel : String}
  {isCharacter otherIsCharacter : Bool} {left right : Statement} {rest others : List Char}

def shape (isCharacter : Bool) : String :=
  if isCharacter then "box" else "ellipse"

theorem shape_inj :
    shape isCharacter = shape otherIsCharacter ↔ isCharacter = otherIsCharacter := by
  revert isCharacter otherIsCharacter
  decide

theorem quote_shape (isCharacter : Bool) : quote (shape isCharacter) = shape isCharacter := by
  apply quote_of_isWord
  rw [isWord_iff]
  cases isCharacter <;> decide

theorem toList_source_treeNode (number : Nat) (label : String) (isCharacter : Bool) :
    (treeNode number label isCharacter).source.toList = '\t' :: ((toString number).toList ++
      ' ' :: ("[label=".toList ++ ((quote label).toList ++ ' ' :: ("shape=".toList ++
        ((shape isCharacter).toList ++ [']', '\n']))))) := by
  have hsource : (treeNode number label isCharacter).source =
      "\t" ++ quote (toString number) ++ (" [" ++ (("label=" ++ quote label) ++ " " ++
        ("shape=" ++ quote (shape isCharacter))) ++ "]") ++ "\n" := rfl
  rw [hsource, quote_shape, quote_of_isWord (isWord_toString number)]
  simp [String.toList_append]

theorem toList_source_treeEdge (parent child : Nat) :
    (treeEdge parent child).source.toList = '\t' :: ((toString parent).toList ++
      ' ' :: ("-> ".toList ++ ((toString child).toList ++ ['\n']))) := by
  have hsource : (treeEdge parent child).source =
      "\t" ++ quote (toString parent) ++ " -> " ++ quote (toString child) ++ "" ++ "\n" := rfl
  rw [hsource, quote_of_isWord (isWord_toString parent), quote_of_isWord (isWord_toString child)]
  simp [String.toList_append]

theorem toString_append_inj {stop : Char} {afterLeft afterRight : List Char}
    (hstop : stop.isDigit = false) (hequal : (toString number).toList ++ stop :: afterLeft =
      (toString other).toList ++ stop :: afterRight) :
    number = other ∧ afterLeft = afterRight := by
  obtain ⟨hnumber, hafter⟩ :=
    Text.append_cons_inj (not_mem_toString hstop) (not_mem_toString hstop) hequal
  exact ⟨toString_inj.1 (String.toList_injective hnumber), hafter⟩

/-- Where the statement for a node ends can be told from its source. -/
theorem treeNode_append_inj (hplain : IsPlain label) (hotherPlain : IsPlain otherLabel)
    (hequal : (treeNode number label isCharacter).source.toList ++ rest =
      (treeNode other otherLabel otherIsCharacter).source.toList ++ others) :
    treeNode number label isCharacter = treeNode other otherLabel otherIsCharacter ∧
      rest = others := by
  simp only [toList_source_treeNode, List.cons_append, List.append_assoc] at hequal
  obtain ⟨rfl, hafterName⟩ := toString_append_inj rfl (List.cons.inj hequal).2
  obtain ⟨hlabel, hafterLabel⟩ := Text.append_cons_inj (not_mem_quote hplain)
    (not_mem_quote hotherPlain) (List.append_cancel_left hafterName)
  have hbracket : ∀ isCharacter, ']' ∉ (shape isCharacter).toList := by decide
  obtain ⟨hshape, hafterShape⟩ := Text.append_cons_inj (hbracket isCharacter)
    (hbracket otherIsCharacter) (List.append_cancel_left hafterLabel)
  obtain rfl : label = otherLabel := by
    apply String.toList_injective
    rw [← filter_quote hplain, hlabel, filter_quote hotherPlain]
  obtain rfl : isCharacter = otherIsCharacter := shape_inj.1 (String.toList_injective hshape)
  exact ⟨rfl, (List.cons.inj hafterShape).2⟩

theorem treeEdge_append_inj
    (hequal : (treeEdge parent child).source.toList ++ rest =
      (treeEdge otherParent otherChild).source.toList ++ others) :
    treeEdge parent child = treeEdge otherParent otherChild ∧ rest = others := by
  simp only [toList_source_treeEdge, List.cons_append, List.append_assoc] at hequal
  obtain ⟨rfl, hafterTail⟩ := toString_append_inj rfl (List.cons.inj hequal).2
  obtain ⟨rfl, hafterHead⟩ := toString_append_inj rfl (List.append_cancel_left hafterTail)
  exact ⟨rfl, hafterHead⟩

theorem treeNode_append_ne :
    (treeNode number label isCharacter).source.toList ++ rest ≠
      (treeEdge parent child).source.toList ++ others := by
  intro hequal
  simp only [toList_source_treeNode, toList_source_treeEdge, List.cons_append,
    List.append_assoc] at hequal
  have hafter := (toString_append_inj rfl (List.cons.inj hequal).2).2
  cases hafter

/-- A node with a plain label, or an arrow, as they make up the picture of a tree. -/
inductive IsPlainStatement : Statement → Prop where
  | node (number : Nat) (label : String) (isCharacter : Bool) (hplain : IsPlain label) :
      IsPlainStatement (treeNode number label isCharacter)
  | edge (parent child : Nat) : IsPlainStatement (treeEdge parent child)

/-- A statement can be read from the front of a text. -/
theorem source_append_inj (hleft : IsPlainStatement left) (hright : IsPlainStatement right)
    (hequal : left.source.toList ++ rest = right.source.toList ++ others) :
    left = right ∧ rest = others := by
  cases hleft with
  | node number label isCharacter hplain =>
    cases hright with
    | node other otherLabel otherIsCharacter hotherPlain =>
      exact treeNode_append_inj hplain hotherPlain hequal
    | edge parent child => exact absurd hequal treeNode_append_ne
  | edge parent child =>
    cases hright with
    | node number label isCharacter hplain => exact absurd hequal.symm treeNode_append_ne
    | edge otherParent otherChild => exact treeEdge_append_inj hequal

theorem source_ne_nil (hleft : IsPlainStatement left) : left.source.toList ≠ [] := by
  cases hleft with
  | node number label isCharacter hplain =>
    rw [toList_source_treeNode]
    exact List.cons_ne_nil _ _
  | edge parent child =>
    rw [toList_source_treeEdge]
    exact List.cons_ne_nil _ _

/-- A row of statements can be read from the texts of all, one after the other. -/
theorem flatMap_source_inj {first second : List Statement}
    (hfirst : ∀ statement ∈ first, IsPlainStatement statement)
    (hsecond : ∀ statement ∈ second, IsPlainStatement statement)
    (hequal : first.flatMap (String.toList ∘ Statement.source) =
      second.flatMap (String.toList ∘ Statement.source)) : first = second := by
  induction first generalizing second with
  | nil =>
    cases second with
    | nil => rfl
    | cons statement rest =>
      have hnone := (List.append_eq_nil_iff.1 hequal.symm).1
      exact absurd hnone (source_ne_nil (hsecond statement List.mem_cons_self))
  | cons statement rest ih =>
    rw [List.forall_mem_cons] at hfirst
    cases second with
    | nil =>
      have hnone := (List.append_eq_nil_iff.1 hequal).1
      exact absurd hnone (source_ne_nil hfirst.1)
    | cons other others =>
      rw [List.forall_mem_cons] at hsecond
      obtain ⟨rfl, hrest⟩ := source_append_inj hfirst.1 hsecond.1 hequal
      rw [ih hfirst.2 hsecond.2 hrest]

/-- The source of the picture of a tree shows its statements. -/
theorem source_treeDigraph_inj {first second : List Statement}
    (hfirst : ∀ statement ∈ first, IsPlainStatement statement)
    (hsecond : ∀ statement ∈ second, IsPlainStatement statement)
    (hequal : (treeDigraph first).source = (treeDigraph second).source) : first = second := by
  apply flatMap_source_inj hfirst hsecond
  have hlist := congrArg String.toList hequal
  simp only [Digraph.source, treeDigraph, String.toList_append, String.toList_join,
    List.append_cancel_right_eq, List.flatMap_map] at hlist
  exact List.append_cancel_left hlist

/-- With other labels this fails: a quote looks the same whether it was escaped before or not. -/
example : quote "\"" = quote "\\\"" := rfl

end Lines

end Dot
end RegexAutomata
