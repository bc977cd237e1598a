import RegexAutomata.Proofs.Regex.Parse

/-!
# Trees and their listings

A tree is listed by the texts of its nodes, each operator behind its operands.  Reduction undoes
this: after every token, the listings of the trees on the stack, one after the other, are the texts
that were read.  So a row of tokens comes to one tree exactly if it is the listing of this tree.
Whatever is not the text of an operator counts as an operand, parentheses too.
-/

namespace RegexAutomata.Regex

open Token

def signs : List String := ["*", "|", "."]

/-- The texts of the nodes, operators behind their operands. -/
def listing : Regex → List String
  | char value => [value]
  | concat left right => left.listing ++ (right.listing ++ ["."])
  | alternation left right => left.listing ++ (right.listing ++ ["|"])
  | star inner => inner.listing ++ ["*"]
  | unknown _ _ => []

/-- Each node has a meaning, and no character looks like an operator.  Then the tree can be told
from its listing. -/
inductive Listable : Regex → Prop where
  | char {value : String} (hvalue : value ∉ signs) : Listable (char value)
  | concat {left right : Regex} (hleft : Listable left) (hright : Listable right) :
      Listable (concat left right)
  | alternation {left right : Regex} (hleft : Listable left) (hright : Listable right) :
      Listable (alternation left right)
  | star {inner : Regex} (hinner : Listable inner) : Listable (star inner)

def listings (stack : List Regex) : List String :=
  stack.reverse.flatMap listing

/-- What one token makes of a stack. -/
inductive Applies (token : Token) : List Regex → List Regex → Prop where
  | star {inner : Regex} {below : List Regex} (htext : token.text = "*") :
      Applies token (inner :: below) (star inner :: below)
  | alternation {left right : Regex} {below : List Regex} (htext : token.text = "|") :
      Applies token (right :: left :: below) (alternation left right :: below)
  | concat {left right : Regex} {below : List Regex} (htext : token.text = ".") :
      Applies token (right :: left :: below) (concat left right :: below)
  | operand {stack : List Regex} (htext : token.text ∉ signs) :
      Applies token stack (char token.text :: stack)

variable {token : Token} {tokens : List Token} {regex : Regex} {stack next final : List Regex}

theorem listings_cons (regex : Regex) (stack : List Regex) :
    listings (regex :: stack) = listings stack ++ regex.listing := by
  rw [listings, List.reverse_cons, List.flatMap_append, List.flatMap_singleton]
  rfl

/-- A token that is no operator stands for a character. -/
theorem reduce_operand (htext : token.text ∉ signs) (stack : List Regex) (rest : List Token) :
    reduce stack (token :: rest) = reduce (char token.text :: stack) rest := by
  cases hrole : token.role with
  | operator operator =>
    exfalso
    apply htext
    cases operator with
    | alternation => simp [signs, role_eq_alternation_iff.1 hrole]
    | concat => simp [signs, role_eq_concat_iff.1 hrole, concatSign]
    | star => simp [signs, role_eq_star_iff.1 hrole]
  | opening => simp only [reduce, hrole]
  | closing => simp only [reduce, hrole]
  | operand => simp only [reduce, hrole]

namespace Applies

theorem reduce_eq (happlies : Applies token stack next) (rest : List Token) :
    reduce stack (token :: rest) = reduce next rest := by
  cases happlies with
  | star htext => simp only [reduce, role_eq_star_iff.2 htext]
  | alternation htext => simp only [reduce, role_eq_alternation_iff.2 htext]
  | concat htext => simp only [reduce, role_eq_concat_iff.2 htext]
  | operand htext => exact reduce_operand htext stack rest

theorem listings_eq (happlies : Applies token stack next) :
    listings next = listings stack ++ [token.text] := by
  cases happlies with
  | star htext => simp [listings_cons, listing, htext]
  | alternation htext => simp [listings_cons, listing, htext]
  | concat htext => simp [listings_cons, listing, htext]
  | operand htext => simp [listings_cons, listing]

theorem listable (happlies : Applies token stack next)
    (hstack : ∀ regex ∈ stack, regex.Listable) : ∀ regex ∈ next, regex.Listable := by
  cases happlies with
  | star htext =>
    rw [List.forall_mem_cons] at hstack ⊢
    exact ⟨.star hstack.1, hstack.2⟩
  | alternation htext =>
    rw [List.forall_mem_cons, List.forall_mem_cons] at hstack
    exact List.forall_mem_cons.2 ⟨.alternation hstack.2.1 hstack.1, hstack.2.2⟩
  | concat htext =>
    rw [List.forall_mem_cons, List.forall_mem_cons] at hstack
    exact List.forall_mem_cons.2 ⟨.concat hstack.2.1 hstack.1, hstack.2.2⟩
  | operand htext => exact List.forall_mem_cons.2 ⟨.char htext, hstack⟩

end Applies

/-- A token is applied to the stack, or it is an operator and the stack has too few trees for it. -/
theorem reduce_cons_cases (stack : List Regex) (token : Token) :
    (∃ next, Applies token stack next) ∨
      ∀ rest, reduce stack (token :: rest) =
        .error ⟨.missingOperand token.text, token.position⟩ := by
  by_cases hsign : token.text ∈ signs
  · have htext : token.text = "*" ∨ token.text = "|" ∨ token.text = "." := by
      simpa [signs] using hsign
    rcases htext with htext | htext | htext
    · have hrole := role_eq_star_iff.2 htext
      cases stack with
      | nil => exact Or.inr fun rest => by simp only [reduce, hrole]
      | cons inner below => exact Or.inl ⟨_, .star htext⟩
    · have hrole := role_eq_alternation_iff.2 htext
      cases stack with
      | nil => exact Or.inr fun rest => by simp only [reduce, hrole]
      | cons right others =>
        cases others with
        | nil => exact Or.inr fun rest => by simp only [reduce, hrole]
        | cons left below => exact Or.inl ⟨_, .alternation htext⟩
    · have hrole := role_eq_concat_iff.2 htext
      cases stack with
      | nil => exact Or.inr fun rest => by simp only [reduce, hrole]
      | cons right others =>
        cases others with
        | nil => exact Or.inr fun rest => by simp only [reduce, hrole]
        | cons left below => exact Or.inl ⟨_, .concat htext⟩
  · exact Or.inl ⟨_, .operand hsign⟩

/-- After every token, the trees on the stack list what was read. -/
theorem listings_of_reduce (hreduce : reduce stack tokens = .ok final) :
    listings final = listings stack ++ tokens.map Token.text ∧
      ((∀ regex ∈ stack, regex.Listable) → ∀ regex ∈ final, regex.Listable) := by
  induction tokens generalizing stack with
  | nil =>
    cases hreduce
    exact ⟨(List.append_nil _).symm, id⟩
  | cons token rest ih =>
    rcases reduce_cons_cases stack token with ⟨next, happlies⟩ | hlacks
    · rw [happlies.reduce_eq] at hreduce
      obtain ⟨hlistings, hlistable⟩ := ih hreduce
      constructor
      · rw [hlistings, happlies.listings_eq, List.append_assoc, List.singleton_append,
          List.map_cons]
      · intro hstack
        exact hlistable (happlies.listable hstack)
    · rw [hlacks] at hreduce
      cases hreduce

/-- The listing of a tree builds it on top of whatever is there. -/
theorem Listable.builds (hlistable : Listable regex)
    (htexts : tokens.map Token.text = regex.listing) : Builds tokens regex := by
  induction hlistable generalizing tokens with
  | char hvalue =>
    obtain ⟨token, rfl, rfl⟩ := List.map_eq_singleton_iff.1 htexts
    intro stack more
    exact reduce_operand hvalue stack more
  | concat _ _ ihLeft ihRight =>
    obtain ⟨before, others, rfl, hbefore, hothers⟩ := List.map_eq_append_iff.1 htexts
    obtain ⟨after, last, rfl, hafter, hlast⟩ := List.map_eq_append_iff.1 hothers
    obtain ⟨sign, rfl, htext⟩ := List.map_eq_singleton_iff.1 hlast
    exact Builds.concat (role_eq_concat_iff.2 htext) (ihLeft hbefore) (ihRight hafter)
  | alternation _ _ ihLeft ihRight =>
    obtain ⟨before, others, rfl, hbefore, hothers⟩ := List.map_eq_append_iff.1 htexts
    obtain ⟨after, last, rfl, hafter, hlast⟩ := List.map_eq_append_iff.1 hothers
    obtain ⟨sign, rfl, htext⟩ := List.map_eq_singleton_iff.1 hlast
    exact Builds.alternation (role_eq_alternation_iff.2 htext) (ihLeft hbefore) (ihRight hafter)
  | star _ ih =>
    obtain ⟨before, last, rfl, hbefore, hlast⟩ := List.map_eq_append_iff.1 htexts
    obtain ⟨sign, rfl, htext⟩ := List.map_eq_singleton_iff.1 hlast
    exact Builds.star (role_eq_star_iff.2 htext) (ih hbefore)

theorem ofPostOrder_of_reduce (hreduce : reduce [] tokens = .ok [regex]) (finish : Int) :
    ofPostOrder tokens finish = .ok regex := by
  rw [ofPostOrder, hreduce]
  rfl

/-- A row of tokens stands for the one tree whose listing it is. -/
theorem ofPostOrder_eq_ok_iff {finish : Int} :
    ofPostOrder tokens finish = .ok regex ↔
      regex.Listable ∧ tokens.map Token.text = regex.listing := by
  constructor
  · intro hregex
    obtain ⟨hlistings, hlistable⟩ := listings_of_reduce (reduce_eq_ok hregex)
    have hnone : listings [] = [] := rfl
    rw [listings_cons, hnone, List.nil_append, List.nil_append] at hlistings
    exact ⟨hlistable (List.forall_mem_nil _) regex List.mem_cons_self, hlistings.symm⟩
  · rintro ⟨hlistable, htexts⟩
    have hbuilds := hlistable.builds htexts [] []
    rw [List.append_nil] at hbuilds
    exact ofPostOrder_of_reduce hbuilds finish

/-- A row of tokens comes to a tree exactly if its texts are the listing of the tree, and it is an
error exactly if they are the listing of none. -/
theorem ofPostOrder_exact (tokens : List Token) (finish : Int) :
    (∀ regex : Regex, ofPostOrder tokens finish = .ok regex ↔
      regex.Listable ∧ tokens.map Token.text = regex.listing) ∧
    ((∃ error, ofPostOrder tokens finish = .error error) ↔
      ∀ regex : Regex, ¬ (regex.Listable ∧ tokens.map Token.text = regex.listing)) := by
  refine ⟨fun regex => ofPostOrder_eq_ok_iff, ?_⟩
  have hlisted : (∀ regex : Regex, ¬ (regex.Listable ∧ tokens.map Token.text = regex.listing)) ↔
      ∀ regex, ofPostOrder tokens finish ≠ .ok regex :=
    forall_congr' fun regex => not_congr ofPostOrder_eq_ok_iff.symm
  rw [hlisted]
  cases ofPostOrder tokens finish with
  | error error => simp
  | ok regex => simp

end RegexAutomata.Regex
