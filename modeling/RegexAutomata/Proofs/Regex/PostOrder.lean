import Mathlib.Algebra.Group.Basic
import Mathlib.Algebra.Group.Int.Defs
import Mathlib.Data.List.Perm.Basic
import Mathlib.Data.List.TakeWhile
import RegexAutomata.Regex.PostOrder

/-!
# What post-order and reduction keep

Tokens in post-order are the tokens there were without the parentheses, and these were balanced.
Reduction leaves as many trees as there are operands more than binary operators.
-/

namespace RegexAutomata

namespace Token

def isParenthesis (token : Token) : Bool :=
  token.role = .opening || token.role = .closing

/-- What a token adds to the number of trees. -/
def weight (token : Token) : Int :=
  match token.role with
  | .operand => 1
  | .operator .alternation => -1
  | .operator .concat => -1
  | _ => 0

def weigh : List Token → Int
  | [] => 0
  | token :: rest => token.weight + weigh rest

/-- The parentheses are balanced after so many that are open. -/
def Closes : Nat → List Token → Prop
  | depth, [] => depth = 0
  | depth, token :: rest =>
    match token.role with
    | .opening => Closes (depth + 1) rest
    | .closing => ∃ below, depth = below + 1 ∧ Closes below rest
    | _ => Closes depth rest

variable {token : Token} {waiting tokens ordered : List Token}

theorem weigh_cons (token : Token) (rest : List Token) :
    weigh (token :: rest) = token.weight + weigh rest :=
  rfl

theorem weigh_of_perm {left right : List Token} (hperm : left.Perm right) :
    weigh left = weigh right := by
  induction hperm with
  | nil => rfl
  | cons token _ ih => rw [weigh_cons, weigh_cons, ih]
  | swap first second rest =>
    rw [weigh_cons, weigh_cons, weigh_cons, weigh_cons, add_left_comm]
  | trans _ _ ihfirst ihsecond => rw [ihfirst, ihsecond]

/-- Parentheses weigh nothing. -/
theorem weigh_filter (tokens : List Token) :
    weigh (tokens.filter fun token => !token.isParenthesis) = weigh tokens := by
  induction tokens with
  | nil => rfl
  | cons token rest ih =>
    cases hparenthesis : token.isParenthesis with
    | true =>
      have hweight : token.weight = 0 := by
        rw [isParenthesis, Bool.or_eq_true, decide_eq_true_iff, decide_eq_true_iff] at hparenthesis
        rcases hparenthesis with hrole | hrole <;> rw [weight, hrole]
      rw [List.filter_cons_of_neg (by simp [hparenthesis]), ih, weigh_cons, hweight, zero_add]
    | false =>
      rw [List.filter_cons_of_pos (by simp [hparenthesis]), weigh_cons, weigh_cons, ih]

/-- Waiting operators are released as they wait, unless a group is still open. -/
theorem release_eq_ok (hrelease : release waiting = .ok ordered) :
    ordered = waiting ∧ ∀ token ∈ waiting, token.isOpening = false := by
  induction waiting generalizing ordered with
  | nil =>
    cases hrelease
    exact ⟨rfl, by simp⟩
  | cons token rest ih =>
    rw [release] at hrelease
    split at hrelease
    · cases hrelease
    · next hopening =>
      cases hrest : release rest with
      | error error => simp [hrest, bind, Except.bind] at hrelease
      | ok released =>
        obtain ⟨rfl, hothers⟩ := ih hrest
        simp only [hrest, bind, Except.bind, pure, Except.pure, Except.ok.injEq] at hrelease
        refine ⟨hrelease.symm, List.forall_mem_cons.2 ⟨?_, hothers⟩⟩
        simpa using hopening

/-- One step of the ordering: what waited, what is put out and what waits now. -/
inductive Ordering (token : Token) : List Token → List Token → List Token → Prop where
  | opening {waiting : List Token} (hrole : token.role = .opening) :
      Ordering token waiting [] (token :: waiting)
  | closing {opening : Token} {out below : List Token} (hrole : token.role = .closing)
      (hopening : opening.isOpening = true) (hout : ∀ other ∈ out, other.isOpening = false) :
      Ordering token (out ++ opening :: below) out below
  | operator {operator : Operator} {out kept : List Token}
      (hrole : token.role = .operator operator)
      (hout : ∀ other ∈ out, other.yieldsTo operator = true) :
      Ordering token (out ++ kept) out (token :: kept)
  | operand {waiting : List Token} (hrole : token.role = .operand) :
      Ordering token waiting [token] waiting

theorem map_append_eq_ok {ε : Type} {visit : Except ε (List Token)} {out ordered : List Token}
    (hvisit : (do let others ← visit; return out ++ others) = Except.ok ordered) :
    ∃ others, visit = .ok others ∧ ordered = out ++ others := by
  cases visit with
  | error error => cases hvisit
  | ok others =>
    cases hvisit
    exact ⟨others, rfl, rfl⟩

theorem exists_takeWhile_eq (test : Token → Bool) (waiting : List Token) :
    ∃ out kept, waiting.takeWhile test = out ∧ waiting.dropWhile test = kept ∧
      waiting = out ++ kept ∧ (∀ other ∈ out, test other = true) ∧
      ∀ top ∈ kept.head?, test top = false := by
  refine ⟨_, _, rfl, rfl, List.takeWhile_append_dropWhile.symm,
    fun other hother => List.mem_takeWhile_imp hother, fun top htop => ?_⟩
  have hhead := List.head?_dropWhile_not test waiting
  rwa [Option.mem_def.1 htop] at hhead

/-- Ordering takes a step and goes on, or a group is closed that was not opened. -/
theorem postOrderFrom_cons (waiting : List Token) (token : Token) (rest : List Token) :
    (∃ out below, Ordering token waiting out below ∧
      postOrderFrom waiting (token :: rest) = do
        let others ← postOrderFrom below rest
        return out ++ others) ∨
    (token.role = .closing ∧ (∀ other ∈ waiting, other.isOpening = false) ∧
      postOrderFrom waiting (token :: rest) = .error ⟨.unmatchedClose, token.position⟩) := by
  rw [postOrderFrom]
  cases hrole : token.role with
  | opening =>
    refine Or.inl ⟨[], token :: waiting, .opening hrole, ?_⟩
    cases postOrderFrom (token :: waiting) rest <;> rfl
  | closing =>
    obtain ⟨out, kept, htake, hdrop, rfl, hout, hkept⟩ :=
      exists_takeWhile_eq (fun other => !other.isOpening) waiting
    have hnone : ∀ other ∈ out, other.isOpening = false := fun other hother => by
      simpa using hout other hother
    simp only [htake, hdrop]
    cases kept with
    | nil => exact Or.inr ⟨trivial, by rwa [List.append_nil], rfl⟩
    | cons opening below =>
      have hopening : opening.isOpening = true := by simpa using hkept opening rfl
      exact Or.inl ⟨out, below, .closing hrole hopening hnone, rfl⟩
  | operator operator =>
    obtain ⟨out, kept, htake, hdrop, rfl, hout, -⟩ :=
      exists_takeWhile_eq (yieldsTo operator) waiting
    simp only [htake, hdrop]
    exact Or.inl ⟨out, token :: kept, .operator hrole hout, rfl⟩
  | operand => exact Or.inl ⟨[token], waiting, .operand hrole, rfl⟩

theorem exists_ordering {rest : List Token}
    (hordered : postOrderFrom waiting (token :: rest) = .ok ordered) :
    ∃ out below others, Ordering token waiting out below ∧
      postOrderFrom below rest = .ok others ∧ ordered = out ++ others := by
  rcases postOrderFrom_cons waiting token rest with
    ⟨out, below, hordering, hequal⟩ | ⟨-, -, hequal⟩
  · obtain ⟨others, hothers, rfl⟩ := map_append_eq_ok (hequal.symm.trans hordered)
    exact ⟨out, below, others, hordering, hothers, rfl⟩
  · rw [hequal] at hordered
    cases hordered

theorem isParenthesis_of_yieldsTo {operator : Operator} (hyields : token.yieldsTo operator = true) :
    token.isParenthesis = false ∧ token.isOpening = false := by
  rw [yieldsTo] at hyields
  split at hyields
  · next other hrole => simp [isParenthesis, isOpening, hrole]
  · cases hyields

theorem filter_eq_self_of_forall {tokens : List Token}
    (htokens : ∀ token ∈ tokens, token.isParenthesis = false) :
    (tokens.filter fun token => !token.isParenthesis) = tokens := by
  apply List.filter_eq_self.2
  intro token htoken
  rw [htokens token htoken]
  rfl

theorem filter_isOpening_eq_nil {tokens : List Token}
    (hnone : ∀ token ∈ tokens, token.isOpening = false) : tokens.filter isOpening = [] := by
  apply List.filter_eq_nil_iff.2
  intro token htoken
  simp [hnone token htoken]

/-- Post-order puts out every token that is not a parenthesis, and nothing else. -/
theorem postOrderFrom_perm (hwaiting : ∀ token ∈ waiting, token.role ≠ .closing)
    (hordered : postOrderFrom waiting tokens = .ok ordered) :
    ordered.Perm ((waiting ++ tokens).filter fun token => !token.isParenthesis) := by
  induction tokens generalizing waiting ordered with
  | nil =>
    obtain ⟨rfl, hopening⟩ := release_eq_ok hordered
    rw [List.append_nil, filter_eq_self_of_forall fun token htoken => ?_]
    have hrole := hopening token htoken
    rw [isOpening, decide_eq_false_iff_not] at hrole
    simp [isParenthesis, hrole, hwaiting token htoken]
  | cons token rest ih =>
    obtain ⟨out, below, others, hordering, hothers, rfl⟩ := exists_ordering hordered
    cases hordering with
    | opening hrole =>
      have hparenthesis : token.isParenthesis = true := by simp [isParenthesis, hrole]
      have hperm := ih (List.forall_mem_cons.2 ⟨by simp [hrole], hwaiting⟩) hothers
      rw [List.cons_append, List.filter_cons_of_neg (by simp [hparenthesis])] at hperm
      rw [List.nil_append, List.filter_append, List.filter_cons_of_neg (by simp [hparenthesis]),
        ← List.filter_append]
      exact hperm
    | @closing opening out below hrole hopening hout =>
      have hparenthesis : token.isParenthesis = true := by simp [isParenthesis, hrole]
      have hopened : opening.isParenthesis = true := by
        rw [isOpening, decide_eq_true_iff] at hopening
        simp [isParenthesis, hopening]
      have hnone : ∀ other ∈ out, other.isParenthesis = false := fun other hother => by
        have hclosing := hwaiting other (List.mem_append_left _ hother)
        have hother := hout other hother
        rw [isOpening, decide_eq_false_iff_not] at hother
        simp [isParenthesis, hother, hclosing]
      have hbelow : ∀ other ∈ below, other.role ≠ .closing := fun other hother =>
        hwaiting other (List.mem_append_right _ (List.mem_cons_of_mem _ hother))
      have hperm := (ih hbelow hothers).append_left out
      rw [List.append_assoc, List.filter_append, filter_eq_self_of_forall hnone, List.cons_append,
        List.filter_cons_of_neg (by simp [hopened]), List.filter_append,
        List.filter_cons_of_neg (by simp [hparenthesis]), ← List.filter_append]
      exact hperm
    | @operator operator out kept hrole hout =>
      have hparenthesis : token.isParenthesis = false := by simp [isParenthesis, hrole]
      have hnone : ∀ other ∈ out, other.isParenthesis = false := fun other hother =>
        (isParenthesis_of_yieldsTo (hout other hother)).1
      have hkept : ∀ other ∈ token :: kept, other.role ≠ .closing := by
        rw [List.forall_mem_cons]
        exact ⟨by simp [hrole], fun other hother => hwaiting other (List.mem_append_right _ hother)⟩
      have hperm := (ih hkept hothers).append_left out
      rw [List.cons_append, List.filter_cons_of_pos (by simp [hparenthesis]),
        List.filter_append] at hperm
      rw [List.append_assoc, List.filter_append, filter_eq_self_of_forall hnone, List.filter_append,
        List.filter_cons_of_pos (by simp [hparenthesis])]
      exact hperm.trans (List.perm_middle.symm.append_left out)
    | operand hrole =>
      have hparenthesis : token.isParenthesis = false := by simp [isParenthesis, hrole]
      have hperm := (ih hwaiting hothers).cons token
      rw [List.filter_append] at hperm
      rw [List.filter_append, List.filter_cons_of_pos (by simp [hparenthesis])]
      exact hperm.trans List.perm_middle.symm

theorem postOrder_eq_ok (hordered : postOrder tokens = .ok ordered) :
    ordered.Perm (tokens.filter fun token => !token.isParenthesis) ∧
      (∀ token ∈ ordered, token.isParenthesis = false) ∧ weigh ordered = weigh tokens := by
  have hperm := postOrderFrom_perm (by simp) hordered
  rw [List.nil_append] at hperm
  refine ⟨hperm, fun token htoken => ?_, ?_⟩
  · simpa using (List.mem_filter.1 (hperm.mem_iff.1 htoken)).2
  · rw [weigh_of_perm hperm, weigh_filter]

/-- Post-order exists only if the parentheses are balanced. -/
theorem closes_of_postOrderFrom (hordered : postOrderFrom waiting tokens = .ok ordered) :
    Closes (waiting.countP isOpening) tokens := by
  induction tokens generalizing waiting ordered with
  | nil =>
    obtain ⟨-, hopening⟩ := release_eq_ok hordered
    rw [Closes, List.countP_eq_length_filter, filter_isOpening_eq_nil hopening, List.length_nil]
  | cons token rest ih =>
    obtain ⟨out, below, others, hordering, hothers, -⟩ := exists_ordering hordered
    have hrest := ih hothers
    rw [Closes]
    cases hordering with
    | opening hrole =>
      have hopening : token.isOpening = true := by simp [isOpening, hrole]
      rw [List.countP_cons_of_pos hopening] at hrest
      simpa only [hrole] using hrest
    | @closing opening out below hrole hopening hout =>
      have hnone : out.countP isOpening = 0 := by
        rw [List.countP_eq_length_filter, filter_isOpening_eq_nil hout, List.length_nil]
      rw [hrole, List.countP_append, List.countP_cons_of_pos hopening, hnone, Nat.zero_add]
      exact ⟨_, rfl, hrest⟩
    | @operator operator out kept hrole hout =>
      have hopening : token.isOpening = false := by simp [isOpening, hrole]
      have hnone : out.countP isOpening = 0 := by
        rw [List.countP_eq_length_filter, filter_isOpening_eq_nil fun other hother =>
          (isParenthesis_of_yieldsTo (hout other hother)).2, List.length_nil]
      rw [List.countP_cons_of_neg (by simp [hopening])] at hrest
      rw [hrole, List.countP_append, hnone, Nat.zero_add]
      exact hrest
    | operand hrole =>
      rw [hrole]
      exact hrest

end Token

namespace Regex

/-- An operator takes its operands from the stack and puts one tree there. -/
theorem exists_reduce_operator {token : Token} {rest : List Token} {stack final : List Regex}
    {operator : Operator} (hrole : token.role = .operator operator)
    (hreduce : reduce stack (token :: rest) = .ok final) :
    ∃ next, reduce next rest = .ok final ∧
      (next.length : Int) = stack.length + token.weight := by
  have hweight := Token.weight.eq_def token
  rw [hrole] at hweight
  match operator, stack with
  | .star, inner :: below =>
    simp only [reduce, hrole] at hreduce
    exact ⟨_, hreduce, by simp [hweight]⟩
  | .concat, right :: left :: below =>
    simp only [reduce, hrole] at hreduce
    exact ⟨_, hreduce, by simp [hweight]⟩
  | .alternation, right :: left :: below =>
    simp only [reduce, hrole] at hreduce
    exact ⟨_, hreduce, by simp [hweight]⟩
  | .star, [] => simp [reduce, hrole] at hreduce
  | .concat, [] => simp [reduce, hrole] at hreduce
  | .concat, [_] => simp [reduce, hrole] at hreduce
  | .alternation, [] => simp [reduce, hrole] at hreduce
  | .alternation, [_] => simp [reduce, hrole] at hreduce

/-- Reduction leaves one tree for each operand, less one for each binary operator. -/
theorem length_of_reduce {tokens : List Token} {stack final : List Regex}
    (htokens : ∀ token ∈ tokens, token.isParenthesis = false)
    (hreduce : reduce stack tokens = .ok final) :
    (final.length : Int) = stack.length + Token.weigh tokens := by
  induction tokens generalizing stack with
  | nil =>
    cases hreduce
    simp [Token.weigh]
  | cons token rest ih =>
    rw [List.forall_mem_cons] at htokens
    rw [Token.weigh_cons]
    cases hrole : token.role with
    | opening => simp [Token.isParenthesis, hrole] at htokens
    | closing => simp [Token.isParenthesis, hrole] at htokens
    | operand =>
      have hweight : token.weight = 1 := by rw [Token.weight, hrole]
      simp only [reduce, hrole] at hreduce
      rw [ih htokens.2 hreduce, List.length_cons, hweight]
      omega
    | operator operator =>
      obtain ⟨next, hnext, hlength⟩ := exists_reduce_operator hrole hreduce
      rw [ih htokens.2 hnext, hlength]
      omega

end Regex
end RegexAutomata
