import RegexAutomata.Proofs.Regex.Grammar
import RegexAutomata.Regex.PostOrder

/-!
# Phrases become trees

While a phrase is brought into post-order, its operators are held back on top of what was waiting
before, and they are given back in the right order as soon as a looser operator or the end of the
group comes.  So the output of a phrase, followed by the operators that are still held back, builds
its tree.
-/

namespace RegexAutomata

open Token

/-- The precedence of the operators that a part may hold back. -/
def Regex.Level.precedence : Regex.Level → Nat
  | alternatives => 1
  | sequence => 2
  | repetition => 3
  | atom => 4

namespace Token

/-- An operator that binds as tightly as a level, or more tightly. -/
def BindsAt (level : Regex.Level) (token : Token) : Prop :=
  ∃ operator, token.role = .operator operator ∧ level.precedence ≤ operator.precedence

/-- What came last does not yield to the operators of a level. -/
def Guards (level : Regex.Level) (waiting : List Token) : Prop :=
  ∀ top ∈ waiting.head?, ∀ operator, top.role = .operator operator →
    operator.precedence < level.precedence

/-- Whatever waits, if it does not yield: tokens of a level are put out in one order and held back
in another. -/
structure Shunts (level : Regex.Level) (tokens out held : List Token) : Prop where
  binds : ∀ token ∈ held, BindsAt level token
  postOrderFrom_eq : ∀ waiting rest, Guards level waiting →
    postOrderFrom waiting (tokens ++ rest) = (out ++ ·) <$> postOrderFrom (held ++ waiting) rest

variable {level tighter : Regex.Level} {token sign : Token} {held waiting : List Token}

theorem BindsAt.not_opening (hbinds : BindsAt level token) : token.isOpening = false := by
  obtain ⟨operator, hrole, -⟩ := hbinds
  simp [isOpening, hrole]

theorem BindsAt.yieldsTo {operator : Operator} (hbinds : BindsAt level token)
    (hlevel : operator.precedence ≤ level.precedence) : token.yieldsTo operator = true := by
  obtain ⟨other, hrole, hother⟩ := hbinds
  simp only [Token.yieldsTo, hrole, decide_eq_true_eq]
  exact Nat.le_trans hlevel hother

theorem Guards.not_yieldsTo {operator : Operator} (hguards : Guards level waiting)
    (hlevel : level.precedence ≤ operator.precedence) :
    ∀ top ∈ waiting.head?, top.yieldsTo operator = false := by
  intro top htop
  rw [Token.yieldsTo]
  split
  · next other hrole =>
    have hless := hguards top htop other hrole
    exact decide_eq_false (by omega)
  · rfl

theorem takeWhile_eq_nil_of_head? {test : Token → Bool}
    (hhead : ∀ top ∈ waiting.head?, test top = false) :
    waiting.takeWhile test = [] ∧ waiting.dropWhile test = waiting := by
  cases waiting with
  | nil => exact ⟨rfl, rfl⟩
  | cons top below =>
    have htop := hhead top rfl
    exact ⟨List.takeWhile_cons_of_neg (by simp [htop]),
      List.dropWhile_cons_of_neg (by simp [htop])⟩

theorem takeWhile_append_of_forall {test : Token → Bool} (hheld : ∀ token ∈ held, test token = true)
    (hhead : ∀ top ∈ waiting.head?, test top = false) :
    (held ++ waiting).takeWhile test = held ∧ (held ++ waiting).dropWhile test = waiting := by
  obtain ⟨htake, hdrop⟩ := takeWhile_eq_nil_of_head? hhead
  rw [List.takeWhile_append_of_pos hheld, List.dropWhile_append_of_pos hheld, htake, hdrop,
    List.append_nil]
  exact ⟨rfl, rfl⟩

/-- An operator drives out what is held back at its own level, but nothing below. -/
theorem postOrderFrom_operator {operator : Operator} (hsign : sign.role = .operator operator)
    (hlevel : operator.precedence = level.precedence) (hheld : ∀ token ∈ held, BindsAt level token)
    (hguards : Guards level waiting) (rest : List Token) :
    postOrderFrom (held ++ waiting) (sign :: rest) =
      (held ++ ·) <$> postOrderFrom (sign :: waiting) rest := by
  obtain ⟨htake, hdrop⟩ := takeWhile_append_of_forall
    (fun token htoken => (hheld token htoken).yieldsTo (Nat.le_of_eq hlevel))
    (hguards.not_yieldsTo (Nat.le_of_eq hlevel.symm))
  rw [postOrderFrom, hsign]
  simp only [htake, hdrop]
  rfl

/-- The end of a group drives out what is held back in it, and the parenthesis with it. -/
theorem postOrderFrom_closing {opening closing : Token} (hopening : opening.role = .opening)
    (hclosing : closing.role = .closing) (hheld : ∀ token ∈ held, BindsAt level token)
    (waiting rest : List Token) :
    postOrderFrom (held ++ opening :: waiting) (closing :: rest) =
      (held ++ ·) <$> postOrderFrom waiting rest := by
  have htest : ∀ token ∈ held, (!token.isOpening) = true := by
    intro token htoken
    rw [(hheld token htoken).not_opening]
    rfl
  have hhead : ∀ top ∈ (opening :: waiting).head?, (!top.isOpening) = false := by
    intro top htop
    obtain rfl : opening = top := Option.some.inj htop
    simp [isOpening, hopening]
  obtain ⟨htake, hdrop⟩ := takeWhile_append_of_forall htest hhead
  rw [postOrderFrom, hclosing]
  simp only [htake, hdrop]
  rfl

theorem release_of_binds (hheld : ∀ token ∈ held, BindsAt level token) :
    release held = .ok held := by
  induction held with
  | nil => rfl
  | cons token rest ih =>
    rw [List.forall_mem_cons] at hheld
    rw [release, hheld.1.not_opening, ih hheld.2]
    rfl

namespace Shunts

variable {tokens out : List Token}

theorem loosen (hshunts : Shunts tighter tokens out held)
    (hlevel : level.precedence ≤ tighter.precedence) : Shunts level tokens out held := by
  constructor
  · intro token htoken
    obtain ⟨operator, hrole, hoperator⟩ := hshunts.binds token htoken
    exact ⟨operator, hrole, Nat.le_trans hlevel hoperator⟩
  · intro waiting rest hguards
    apply hshunts.postOrderFrom_eq waiting rest
    intro top htop operator hrole
    exact Nat.lt_of_lt_of_le (hguards top htop operator hrole) hlevel

theorem operand (hrole : token.role = .operand) : Shunts .atom [token] [token] [] := by
  constructor
  · simp
  · intro waiting rest _
    rw [List.singleton_append, postOrderFrom, hrole]
    rfl

/-- Whatever waits below a group is left alone until the group is closed. -/
theorem group {opening closing : Token} (hopening : opening.role = .opening)
    (hclosing : closing.role = .closing) (hinner : Shunts .alternatives tokens out held) :
    Shunts .atom (opening :: (tokens ++ [closing])) (out ++ held) [] := by
  constructor
  · simp
  · intro waiting rest _
    have hguards : Guards .alternatives (opening :: waiting) := by
      intro top htop operator hrole
      obtain rfl : opening = top := Option.some.inj htop
      rw [hopening] at hrole
      cases hrole
    rw [List.cons_append, List.append_assoc, postOrderFrom, hopening]
    simp only [hinner.postOrderFrom_eq _ _ hguards, List.singleton_append,
      postOrderFrom_closing hopening hclosing hinner.binds, List.nil_append, Functor.map_map,
      List.append_assoc]

theorem star (hsign : sign.role = .operator .star) (hinner : Shunts .repetition tokens out held) :
    Shunts .repetition (tokens ++ [sign]) (out ++ held) [sign] := by
  constructor
  · rw [List.forall_mem_singleton]
    exact ⟨.star, hsign, Nat.le_refl _⟩
  · intro waiting rest hguards
    rw [List.append_assoc, hinner.postOrderFrom_eq _ _ hguards, List.singleton_append,
      postOrderFrom_operator hsign rfl hinner.binds hguards]
    simp only [Functor.map_map, List.append_assoc, List.singleton_append]

/-- A binary operator waits until its right operand is put out, since what is in there binds more
tightly. -/
theorem binary {before after first second heldBefore heldAfter : List Token} {operator : Operator}
    (hsign : sign.role = .operator operator) (hlevel : operator.precedence = level.precedence)
    (htighter : level.precedence < tighter.precedence)
    (hleft : Shunts level before first heldBefore)
    (hright : Shunts tighter after second heldAfter) :
    Shunts level (before ++ sign :: after) (first ++ heldBefore ++ second)
      (heldAfter ++ [sign]) := by
  constructor
  · rw [List.forall_mem_append, List.forall_mem_singleton]
    exact ⟨(hright.loosen (Nat.le_of_lt htighter)).binds, operator, hsign, Nat.le_of_eq hlevel.symm⟩
  · intro waiting rest hguards
    have hsignGuards : Guards tighter (sign :: waiting) := by
      intro top htop other hrole
      obtain rfl : sign = top := Option.some.inj htop
      obtain rfl : operator = other := by simpa [hsign] using hrole
      exact hlevel ▸ htighter
    rw [List.append_assoc, List.cons_append, hleft.postOrderFrom_eq _ _ hguards,
      postOrderFrom_operator hsign hlevel hleft.binds hguards,
      hright.postOrderFrom_eq _ _ hsignGuards]
    simp only [Functor.map_map, List.append_assoc, List.singleton_append]

end Shunts

end Token

namespace Regex

/-- On every stack, tokens in post-order put one tree on top. -/
def Builds (tokens : List Token) (regex : Regex) : Prop :=
  ∀ stack more, reduce stack (tokens ++ more) = reduce (regex :: stack) more

theorem builds_operand {token : Token} (hrole : token.role = .operand) :
    Builds [token] (.char token.text) := by
  intro stack more
  simp only [List.singleton_append, reduce, hrole]

theorem Builds.star {sign : Token} {tokens : List Token} {regex : Regex}
    (hsign : sign.role = .operator .star) (hinner : Builds tokens regex) :
    Builds (tokens ++ [sign]) (.star regex) := by
  intro stack more
  rw [List.append_assoc, hinner, List.singleton_append]
  simp only [reduce, hsign]

theorem Builds.concat {sign : Token} {before after : List Token} {left right : Regex}
    (hsign : sign.role = .operator .concat) (hleft : Builds before left)
    (hright : Builds after right) : Builds (before ++ (after ++ [sign])) (.concat left right) := by
  intro stack more
  rw [List.append_assoc, hleft, List.append_assoc, hright, List.singleton_append]
  simp only [reduce, hsign]

theorem Builds.alternation {sign : Token} {before after : List Token} {left right : Regex}
    (hsign : sign.role = .operator .alternation) (hleft : Builds before left)
    (hright : Builds after right) :
    Builds (before ++ (after ++ [sign])) (.alternation left right) := by
  intro stack more
  rw [List.append_assoc, hleft, List.append_assoc, hright, List.singleton_append]
  simp only [reduce, hsign]

/-- A phrase is brought into an order that builds its tree. -/
theorem Phrase.exists_shunts {level : Level} {tokens : List Token} {regex : Regex}
    (hphrase : Phrase level tokens regex) :
    ∃ out held, Shunts level tokens out held ∧ Builds (out ++ held) regex := by
  induction hphrase with
  | operand hrole => exact ⟨_, _, .operand hrole, builds_operand hrole⟩
  | group hopening hclosing _ ih =>
    obtain ⟨out, held, hshunts, hbuilds⟩ := ih
    refine ⟨_, _, hshunts.group hopening hclosing, ?_⟩
    rwa [List.append_nil]
  | atom _ ih =>
    obtain ⟨out, held, hshunts, hbuilds⟩ := ih
    exact ⟨out, held, hshunts.loosen (by decide), hbuilds⟩
  | star hsign _ ih =>
    obtain ⟨out, held, hshunts, hbuilds⟩ := ih
    exact ⟨_, _, hshunts.star hsign, hbuilds.star hsign⟩
  | repetition _ ih =>
    obtain ⟨out, held, hshunts, hbuilds⟩ := ih
    exact ⟨out, held, hshunts.loosen (by decide), hbuilds⟩
  | concat hsign _ _ ihLeft ihRight =>
    obtain ⟨first, heldBefore, hleft, hbuildsLeft⟩ := ihLeft
    obtain ⟨second, heldAfter, hright, hbuildsRight⟩ := ihRight
    refine ⟨_, _, hleft.binary hsign rfl (by decide) hright, ?_⟩
    have hbuilds := hbuildsLeft.concat hsign hbuildsRight
    simpa only [List.append_assoc] using hbuilds
  | sequence _ ih =>
    obtain ⟨out, held, hshunts, hbuilds⟩ := ih
    exact ⟨out, held, hshunts.loosen (by decide), hbuilds⟩
  | alternation hsign _ _ ihLeft ihRight =>
    obtain ⟨first, heldBefore, hleft, hbuildsLeft⟩ := ihLeft
    obtain ⟨second, heldAfter, hright, hbuildsRight⟩ := ihRight
    refine ⟨_, _, hleft.binary hsign rfl (by decide) hright, ?_⟩
    have hbuilds := hbuildsLeft.alternation hsign hbuildsRight
    simpa only [List.append_assoc] using hbuilds

/-- The post-order of a phrase exists, and its tree is the tree of the phrase. -/
theorem Phrase.ofPostOrder_eq {tokens : List Token} {regex : Regex}
    (hphrase : Phrase .alternatives tokens regex) (finish : Int) :
    ∃ ordered, Token.postOrder tokens = .ok ordered ∧ ofPostOrder ordered finish = .ok regex := by
  obtain ⟨out, held, hshunts, hbuilds⟩ := hphrase.exists_shunts
  have horder := hshunts.postOrderFrom_eq [] [] (by simp [Guards])
  rw [List.append_nil, List.append_nil, postOrderFrom, release_of_binds hshunts.binds] at horder
  refine ⟨out ++ held, horder, ?_⟩
  have hreduce := hbuilds [] []
  rw [List.append_nil] at hreduce
  rw [ofPostOrder, hreduce]
  rfl

end Regex
end RegexAutomata
