import RegexAutomata.Proofs.Regex.StandIn

/-!
# What post-order arranges

The stack gives up its tokens only from the top, and a group gives up the tokens of the group only.
So after each part of a row some tokens are put out, and these come before all that is put out
later.  This alone, for tokens of any kind in any order, says where operands and groups go.
-/

namespace RegexAutomata.Token

open Regex

/-- What ordering a part of a row comes to: what waited before, what is put out meanwhile, and what
waits then. -/
inductive Passes : List Token → List Token → List Token → List Token → Prop where
  | nil {waiting : List Token} : Passes waiting [] [] waiting
  | cons {token : Token} {waiting rest out others between below : List Token}
      (hstep : Ordering token waiting out between) (hrest : Passes between rest others below) :
      Passes waiting (token :: rest) (out ++ others) below

/-- The parentheses at two indices of a text are partners. -/
def Partners (text : List Char) (opening closing : Nat) : Prop :=
  ∃ before inner after, text = before ++ '(' :: (inner ++ ')' :: after) ∧ Balanced inner ∧
    opening = before.length ∧ closing = before.length + 1 + inner.length

/-- An order of the places in a row of tokens: each place without a parenthesis comes once.  An
operand comes before all that follows it in the row, so that operands stay as they are and operators
come after the operands before them.  What is inside a group comes before all that follows it. -/
structure Arranges (tokens : List Token) (order : List Nat) : Prop where
  nodup : order.Nodup
  mem_iff : ∀ index, index ∈ order ↔
    ∃ token, tokens[index]? = some token ∧ token.role ≠ .opening ∧ token.role ≠ .closing
  operand_first : ∀ index later token, tokens[index]? = some token → token.role = .operand →
    index < later → later ∈ order → [index, later].Sublist order
  group_first : ∀ opening closing index later, Partners (tokens.map sign) opening closing →
    opening < index → index < closing → closing < later → index ∈ order → later ∈ order →
      [index, later].Sublist order

/-- What is wrong with the parentheses of a row of tokens, and where: at the first closing one
without partner if there is any, and otherwise at the last opening one without partner. -/
inductive Complaint (tokens : List Token) : SyntaxError → Prop where
  | unmatchedClose {index : Nat} {token : Token} (htoken : tokens[index]? = some token)
      (hindex : IsLeast {index | UnmatchedClose (tokens.map sign) index} index) :
      Complaint tokens ⟨.unmatchedClose, token.position⟩
  | unmatchedOpen {index : Nat} {token : Token} (htoken : tokens[index]? = some token)
      (hnone : ∀ index, ¬ UnmatchedClose (tokens.map sign) index)
      (hindex : IsGreatest {index | UnmatchedOpen (tokens.map sign) index} index) :
      Complaint tokens ⟨.unmatchedOpen, token.position⟩

variable {token opening closing : Token}
  {tokens rest waiting held inner out between below ordered : List Token}

section Step

/-- What is put out and what waits is what waited, with the new token. -/
theorem Ordering.mem_of_mem (hstep : Ordering token waiting out below) :
    ∀ other ∈ out ++ below, other ∈ token :: waiting := by
  intro other hother
  cases hstep with
  | opening hrole => exact hother
  | closing hrole hopening hout =>
    simp only [List.mem_append, List.mem_cons] at hother ⊢
    tauto
  | operator hrole hout =>
    simp only [List.mem_append, List.mem_cons] at hother ⊢
    tauto
  | operand hrole => exact hother

theorem Ordering.of_opening (hstep : Ordering token waiting out below)
    (hrole : token.role = .opening) : below = token :: waiting := by
  cases hstep with
  | opening _ => rfl
  | closing hother _ _ => cases hrole.symm.trans hother
  | operator hother _ => cases hrole.symm.trans hother
  | operand hother => cases hrole.symm.trans hother

theorem Ordering.of_closing (hstep : Ordering token waiting out below)
    (hrole : token.role = .closing) :
    ∃ opening, waiting = out ++ opening :: below ∧ opening.isOpening = true ∧
      ∀ other ∈ out, other.isOpening = false := by
  cases hstep with
  | opening hother => cases hrole.symm.trans hother
  | closing _ hopening hout => exact ⟨_, rfl, hopening, hout⟩
  | operator hother _ => cases hrole.symm.trans hother
  | operand hother => cases hrole.symm.trans hother

theorem Ordering.of_operator {operator : Operator} (hstep : Ordering token waiting out below)
    (hrole : token.role = .operator operator) :
    ∃ kept, waiting = out ++ kept ∧ below = token :: kept ∧
      ∀ other ∈ out, other.isOpening = false := by
  cases hstep with
  | opening hother => cases hrole.symm.trans hother
  | closing hother _ _ => cases hrole.symm.trans hother
  | operator _ hout =>
    exact ⟨_, rfl, rfl, fun other hother => (isParenthesis_of_yieldsTo (hout other hother)).2⟩
  | operand hother => cases hrole.symm.trans hother

theorem Ordering.of_operand (hstep : Ordering token waiting out below)
    (hrole : token.role = .operand) : out = [token] ∧ below = waiting := by
  cases hstep with
  | opening hother => cases hrole.symm.trans hother
  | closing hother _ _ => cases hrole.symm.trans hother
  | operator hother _ => cases hrole.symm.trans hother
  | operand _ => exact ⟨rfl, rfl⟩

end Step

section Passes

theorem exists_passes (hordered : postOrderFrom waiting (tokens ++ rest) = .ok ordered) :
    ∃ out below others, Passes waiting tokens out below ∧
      postOrderFrom below rest = .ok others ∧ ordered = out ++ others := by
  induction tokens generalizing waiting ordered with
  | nil => exact ⟨[], waiting, ordered, .nil, hordered, rfl⟩
  | cons token others ih =>
    obtain ⟨first, between, second, hstep, hsecond, rfl⟩ := exists_ordering hordered
    obtain ⟨out, below, last, hpasses, hlast, rfl⟩ := ih hsecond
    exact ⟨first ++ out, below, last, .cons hstep hpasses, hlast, (List.append_assoc ..).symm⟩

namespace Passes

theorem mem_of_mem (hpasses : Passes waiting tokens out below) :
    ∀ other ∈ out ++ below, other ∈ waiting ++ tokens := by
  induction hpasses with
  | nil => simp
  | cons hstep _ ih =>
    intro other hother
    have hfirst := hstep.mem_of_mem other
    have hsecond := ih other
    simp only [List.mem_append, List.mem_cons] at hother hfirst hsecond ⊢
    tauto

theorem exists_of_append (hpasses : Passes waiting (tokens ++ rest) out below) :
    ∃ first between second, Passes waiting tokens first between ∧
      Passes between rest second below ∧ out = first ++ second := by
  induction tokens generalizing waiting out with
  | nil => exact ⟨[], waiting, out, .nil, hpasses, rfl⟩
  | cons token others ih =>
    cases hpasses with
    | @cons _ _ _ start _ _ _ hstep hrest =>
      obtain ⟨first, between, second, hfirst, hsecond, rfl⟩ := ih hrest
      exact ⟨start ++ first, between, second, .cons hstep hfirst, hsecond,
        (List.append_assoc ..).symm⟩

/-- An operand is put out at once. -/
theorem mem_of_operand (hpasses : Passes waiting (tokens ++ [token]) out below)
    (hrole : token.role = .operand) : token ∈ out := by
  obtain ⟨first, between, second, -, hlast, rfl⟩ := hpasses.exists_of_append
  cases hlast with
  | cons hstep _ =>
    obtain ⟨rfl, -⟩ := hstep.of_operand hrole
    simp

end Passes

theorem mem_of_mem_postOrderFrom (hordered : postOrderFrom waiting tokens = .ok ordered) :
    ∀ other ∈ ordered, other ∈ waiting ++ tokens := by
  rw [← List.append_nil tokens] at hordered
  obtain ⟨out, below, others, hpasses, hrelease, rfl⟩ := exists_passes hordered
  obtain ⟨rfl, -⟩ := release_eq_ok hrelease
  exact hpasses.mem_of_mem

end Passes

section Group

/-- These tokens wait, and what was put on top of them is no opening parenthesis. -/
def Covers (waiting below : List Token) : Prop :=
  ∃ held, below = held ++ waiting ∧ ∀ other ∈ held, other.isOpening = false

theorem Covers.refl (waiting : List Token) : Covers waiting waiting :=
  ⟨[], rfl, List.forall_mem_nil _⟩

/-- Of the opening parentheses that wait, the last one is found first. -/
theorem Covers.eq_of_append (hopening : opening.isOpening = true)
    (hcovers : Covers (opening :: waiting) (out ++ token :: below))
    (hout : ∀ other ∈ out, other.isOpening = false) (htoken : token.isOpening = true) :
    below = waiting := by
  obtain ⟨held, hequal, hheld⟩ := hcovers
  rcases List.append_eq_append_iff.1 hequal with ⟨more, rfl, hmore⟩ | ⟨more, rfl, hmore⟩
  · cases more with
    | nil => exact (List.cons.inj hmore).2
    | cons first more =>
      obtain ⟨rfl, -⟩ := List.cons.inj hmore
      rw [hheld token (by simp)] at htoken
      cases htoken
  · cases more with
    | nil => exact (List.cons.inj hmore).2.symm
    | cons first more =>
      obtain ⟨rfl, -⟩ := List.cons.inj hmore
      rw [hout opening (by simp)] at hopening
      cases hopening

/-- An operator does not get past an opening parenthesis. -/
theorem Covers.of_operator {operator : Operator} (hopening : opening.isOpening = true)
    (hcovers : Covers (opening :: waiting) between) (hrole : token.role = .operator operator)
    (hstep : Ordering token between out below) : Covers (opening :: waiting) below := by
  obtain ⟨held, rfl, hheld⟩ := hcovers
  obtain ⟨kept, hequal, rfl, hout⟩ := hstep.of_operator hrole
  have hnone : token.isOpening = false := by simp [isOpening, hrole]
  rcases List.append_eq_append_iff.1 hequal with ⟨more, rfl, hmore⟩ | ⟨more, rfl, rfl⟩
  · cases more with
    | nil => exact ⟨[token], congrArg (token :: ·) hmore.symm, List.forall_mem_singleton.2 hnone⟩
    | cons first more =>
      obtain ⟨rfl, -⟩ := List.cons.inj hmore
      rw [hout opening (by simp)] at hopening
      cases hopening
  · rw [List.forall_mem_append] at hheld
    exact ⟨token :: more, rfl, List.forall_mem_cons.2 ⟨hnone, hheld.2⟩⟩

/-- After a group there waits what waited before it, if this is so for what is inside. -/
theorem Passes.after_group (hopening : opening.role = .opening) (hclosing : closing.role = .closing)
    (hinner : ∀ out below, Passes (opening :: waiting) inner out below →
      Covers (opening :: waiting) below)
    (hpasses : Passes waiting (opening :: (inner ++ closing :: rest)) out below) :
    ∃ others, Passes waiting rest others below := by
  cases hpasses with
  | cons hstep hrest =>
    obtain rfl := hstep.of_opening hopening
    obtain ⟨first, between, second, hfirst, hsecond, -⟩ := hrest.exists_of_append
    cases hsecond with
    | cons hclose hafter =>
      obtain ⟨found, rfl, hfound, hout⟩ := hclose.of_closing hclosing
      have hopened : opening.isOpening = true := decide_eq_true hopening
      obtain rfl := (hinner _ _ hfirst).eq_of_append hopened hout hfound
      exact ⟨_, hafter⟩

/-- A balanced part leaves alone what waits from an opening parenthesis on. -/
theorem Passes.covers (hbalanced : Balanced (tokens.map sign)) (hopening : opening.isOpening = true)
    (hcovers : Covers (opening :: waiting) between) (hpasses : Passes between tokens out below) :
    Covers (opening :: waiting) below := by
  generalize htext : tokens.map sign = text at hbalanced
  induction hbalanced generalizing tokens opening waiting between out below with
  | nil =>
    obtain rfl := List.map_eq_nil_iff.1 htext
    cases hpasses
    exact hcovers
  | plain hnotOpening hnotClosing _ ih =>
    obtain ⟨token, others, rfl, rfl, hothers⟩ := List.map_eq_cons_iff.1 htext
    rw [Ne, sign_eq_opening_iff] at hnotOpening
    rw [Ne, sign_eq_closing_iff] at hnotClosing
    cases hpasses with
    | cons hstep hrest =>
      cases hrole : token.role with
      | opening => exact absurd hrole hnotOpening
      | closing => exact absurd hrole hnotClosing
      | operator operator =>
        exact ih hopening (hcovers.of_operator hopening hrole hstep) hrest hothers
      | operand =>
        obtain ⟨-, rfl⟩ := hstep.of_operand hrole
        exact ih hopening hcovers hrest hothers
  | group _ _ ihInner ihRest =>
    obtain ⟨first, others, rfl, hfirst, hothers⟩ := List.map_eq_cons_iff.1 htext
    obtain ⟨inner, others, rfl, hinner, hothers⟩ := List.map_eq_append_iff.1 hothers
    obtain ⟨last, others, rfl, hlast, hothers⟩ := List.map_eq_cons_iff.1 hothers
    rw [sign_eq_opening_iff] at hfirst
    rw [sign_eq_closing_iff] at hlast
    have hwithin : ∀ out below, Passes (first :: between) inner out below →
        Covers (first :: between) below := fun out below hpart =>
      ihInner (decide_eq_true hfirst) (.refl _) hpart hinner
    obtain ⟨_, hafter⟩ := hpasses.after_group hfirst hlast hwithin
    exact ihRest hopening hcovers hafter hothers

/-- A group leaves alone what waits before it. -/
theorem Passes.of_group (hbalanced : Balanced (inner.map sign)) (hopening : opening.role = .opening)
    (hclosing : closing.role = .closing)
    (hpasses : Passes waiting (opening :: (inner ++ [closing])) out below) : below = waiting := by
  have hwithin : ∀ out below, Passes (opening :: waiting) inner out below →
      Covers (opening :: waiting) below := fun out below hpart =>
    hpart.covers hbalanced (decide_eq_true hopening) (.refl _)
  obtain ⟨_, hnil⟩ := hpasses.after_group hopening hclosing hwithin
  cases hnil
  rfl

end Group

section Places

theorem map_place_standIns (start : Nat) (tokens : List Token) :
    (standIns start tokens).map place = List.range' start tokens.length := by
  induction tokens generalizing start with
  | nil => rfl
  | cons token rest ih =>
    rw [standIns, List.map_cons, place_standIn, ih, List.length_cons, List.range'_succ]

theorem place_lt_of_mem_take {count : Nat} {other : Token}
    (hother : other ∈ (standIns 0 tokens).take count) : other.place < count := by
  obtain ⟨index, hindex⟩ := List.mem_iff_getElem?.1 hother
  rw [List.getElem?_take] at hindex
  split at hindex
  · next hless =>
    rw [getElem?_standIns, Nat.zero_add, Option.map_eq_some_iff] at hindex
    obtain ⟨token, -, rfl⟩ := hindex
    rwa [place_standIn]
  · cases hindex

theorem le_place_of_mem_drop {count : Nat} {other : Token}
    (hother : other ∈ (standIns 0 tokens).drop count) : count ≤ other.place := by
  obtain ⟨index, hindex⟩ := List.mem_iff_getElem?.1 hother
  rw [List.getElem?_drop, getElem?_standIns, Nat.zero_add, Option.map_eq_some_iff] at hindex
  obtain ⟨token, -, rfl⟩ := hindex
  rw [place_standIn]
  exact Nat.le_add_right count index

/-- What is put out first, from places before a given one, comes before all that is put out from
that place on. -/
theorem sublist_map_place {others : List Token} {bound index later : Nat}
    (hout : ∀ other ∈ out, other.place < bound) (hlater : bound ≤ later)
    (hindex : index ∈ out.map place) (hmem : later ∈ (out ++ others).map place) :
    [index, later].Sublist ((out ++ others).map place) := by
  rw [List.map_append] at hmem ⊢
  have hafter : later ∈ others.map place := by
    rcases List.mem_append.1 hmem with hbefore | hafter
    · obtain ⟨other, hother, rfl⟩ := List.mem_map.1 hbefore
      exact absurd (hout other hother) (Nat.not_lt.2 hlater)
    · exact hafter
  exact (List.singleton_sublist.2 hindex).append (List.singleton_sublist.2 hafter)

/-- What is put out within the first part of a row comes from there, and what is put out later waits
after the first part or comes from the rest. -/
theorem exists_passes_take (hordered : postOrder (standIns 0 tokens) = .ok ordered) (count : Nat) :
    ∃ out below others, Passes [] ((standIns 0 tokens).take count) out below ∧
      ordered = out ++ others ∧ (∀ other ∈ out, other.place < count) ∧
      ∀ other ∈ others, other ∈ below ∨ count ≤ other.place := by
  rw [postOrder, ← List.take_append_drop count (standIns 0 tokens)] at hordered
  obtain ⟨out, below, others, hpasses, hothers, rfl⟩ := exists_passes hordered
  refine ⟨out, below, others, hpasses, rfl, fun other hother => ?_, fun other hother => ?_⟩
  · have hmem := hpasses.mem_of_mem other (List.mem_append_left _ hother)
    exact place_lt_of_mem_take hmem
  · rcases List.mem_append.1 (mem_of_mem_postOrderFrom hothers other hother) with hbelow | hrest
    · exact Or.inl hbelow
    · exact Or.inr (le_place_of_mem_drop hrest)

end Places

section Arranged

variable {text : List Char} {first last index later : Nat}

/-- Everything is put out but the parentheses. -/
theorem mem_map_place_iff (hordered : postOrder (standIns 0 tokens) = .ok ordered) (index : Nat) :
    index ∈ ordered.map place ↔
      ∃ token, tokens[index]? = some token ∧ token.role ≠ .opening ∧ token.role ≠ .closing := by
  have hperm := (postOrder_eq_ok hordered).1
  constructor
  · intro hindex
    obtain ⟨other, hother, rfl⟩ := List.mem_map.1 hindex
    obtain ⟨hstandIn, hparenthesis⟩ := List.mem_filter.1 (hperm.mem_iff.1 hother)
    obtain ⟨token, htoken, hequal⟩ := exists_of_mem_standIns hstandIn
    rw [hequal, isParenthesis, role_standIn] at hparenthesis
    exact ⟨token, htoken, by simpa using hparenthesis⟩
  · rintro ⟨token, htoken, hrole⟩
    refine List.mem_map.2 ⟨standIn index token, hperm.mem_iff.2 (List.mem_filter.2 ⟨?_, ?_⟩), ?_⟩
    · apply List.mem_iff_getElem?.2
      exact ⟨index, by rw [getElem?_standIns, htoken, Nat.zero_add]; rfl⟩
    · rw [isParenthesis, role_standIn]
      simpa using hrole
    · exact place_standIn index token

theorem nodup_map_place (hordered : postOrder (standIns 0 tokens) = .ok ordered) :
    (ordered.map place).Nodup := by
  have hperm := (postOrder_eq_ok hordered).1.map place
  have hsublist : ((standIns 0 tokens).filter fun token => !token.isParenthesis).Sublist
      (standIns 0 tokens) := List.filter_sublist
  have hplaces := hsublist.map place
  rw [map_place_standIns] at hplaces
  exact hperm.nodup_iff.2 (hplaces.nodup List.nodup_range')

theorem operand_first (hordered : postOrder (standIns 0 tokens) = .ok ordered)
    (htoken : tokens[index]? = some token) (hrole : token.role = .operand) (hlater : index < later)
    (hmem : later ∈ ordered.map place) : [index, later].Sublist (ordered.map place) := by
  obtain ⟨out, below, others, hpasses, rfl, hout, -⟩ := exists_passes_take hordered (index + 1)
  have hstandIn : (standIns 0 tokens)[index]? = some (standIn index token) := by
    rw [getElem?_standIns, htoken, Nat.zero_add]
    rfl
  rw [List.take_add_one, hstandIn, Option.toList_some] at hpasses
  have hfound := hpasses.mem_of_operand (by rw [role_standIn, hrole])
  apply sublist_map_place hout hlater _ hmem
  exact List.mem_map.2 ⟨_, hfound, place_standIn index token⟩

/-- Where partners stand there is a group of stand-ins. -/
theorem exists_group (hpartners : Partners (tokens.map sign) first last) :
    ∃ opening inner closing, (standIns 0 tokens).take (last + 1) =
      (standIns 0 tokens).take first ++ opening :: (inner ++ [closing]) ∧
      opening.role = .opening ∧ closing.role = .closing ∧ Balanced (inner.map sign) := by
  obtain ⟨before, within, after, htext, hwithin, rfl, rfl⟩ := hpartners
  rw [← map_sign_standIns 0] at htext
  obtain ⟨left, others, hsplit, rfl, hothers⟩ := List.map_eq_append_iff.1 htext
  obtain ⟨opening, others, rfl, hopening, hwhole⟩ := List.map_eq_cons_iff.1 hothers
  obtain ⟨inner, others, rfl, rfl, hrest⟩ := List.map_eq_append_iff.1 hwhole
  obtain ⟨closing, right, rfl, hclosing, -⟩ := List.map_eq_cons_iff.1 hrest
  refine ⟨opening, inner, closing, ?_, sign_eq_opening_iff.1 hopening,
    sign_eq_closing_iff.1 hclosing, hwithin⟩
  rw [hsplit, List.length_map, List.length_map, List.take_left]
  have hwhole : left ++ opening :: (inner ++ closing :: right) =
      (left ++ opening :: (inner ++ [closing])) ++ right := by simp
  rw [hwhole]
  apply List.take_left'
  simp
  omega

/-- What is inside a group is put out before anything behind its closing parenthesis. -/
theorem group_first (hordered : postOrder (standIns 0 tokens) = .ok ordered)
    (hpartners : Partners (tokens.map sign) first last) (hfirst : first < index)
    (hlast : index < last) (hlater : last < later) (hindex : index ∈ ordered.map place)
    (hmem : later ∈ ordered.map place) : [index, later].Sublist (ordered.map place) := by
  obtain ⟨out, below, others, hpasses, rfl, hout, hothers⟩ := exists_passes_take hordered (last + 1)
  obtain ⟨opening, inner, closing, hsplit, hopening, hclosing, hinner⟩ := exists_group hpartners
  rw [hsplit] at hpasses
  obtain ⟨start, waiting, rest, hstart, hgroup, -⟩ := hpasses.exists_of_append
  obtain rfl := hgroup.of_group hinner hopening hclosing
  apply sublist_map_place hout hlater _ hmem
  rw [List.map_append] at hindex
  rcases List.mem_append.1 hindex with hbefore | hafter
  · exact hbefore
  · exfalso
    obtain ⟨other, hother, rfl⟩ := List.mem_map.1 hafter
    rcases hothers other hother with hwaiting | hrest
    · have hless := place_lt_of_mem_take
        (hstart.mem_of_mem other (List.mem_append_right _ hwaiting))
      omega
    · omega

theorem arranges_of_postOrder (hordered : postOrder (standIns 0 tokens) = .ok ordered) :
    Arranges tokens (ordered.map place) where
  nodup := nodup_map_place hordered
  mem_iff := mem_map_place_iff hordered
  operand_first _ _ _ := operand_first hordered
  group_first _ _ _ _ := group_first hordered

/-- The tokens are put out in the order of their stand-ins. -/
theorem exists_arranges (hordered : postOrder tokens = .ok ordered) :
    Balanced (tokens.map sign) ∧ ∃ order, Arranges tokens order ∧
      ordered.map some = order.map fun index => tokens[index]? := by
  have hlikewise := likewise_postOrder tokens
  have hverdict := verdict_standIns tokens
  rw [hordered] at hlikewise
  generalize hvisit : postOrder (standIns 0 tokens) = visit at hlikewise hverdict
  cases hlikewise with
  | ordered others =>
    constructor
    · generalize tokens.map sign = text at hverdict
      cases hverdict with
      | balanced htext => exact htext
    · refine ⟨_, arranges_of_postOrder hvisit, ?_⟩
      rw [List.map_map, List.map_map]
      apply List.map_congr_left
      intro other hother
      exact (getElem?_place (mem_of_mem_postOrderFrom hvisit other hother)).symm

/-- What is found wrong is found at the token whose stand-in it is found at. -/
theorem complaint_of_postOrder {error : SyntaxError} (hordered : postOrder tokens = .error error) :
    ¬ Balanced (tokens.map sign) ∧ Complaint tokens error := by
  have hlikewise := likewise_postOrder tokens
  have hverdict := verdict_standIns tokens
  rw [hordered] at hlikewise
  generalize postOrder (standIns 0 tokens) = visit at hlikewise hverdict
  cases hlikewise with
  | @fault fault other hother =>
    have hplace := getElem?_place hother
    rw [place] at hplace
    generalize other.position = position at hplace hverdict
    generalize htext : tokens.map sign = text at hverdict
    cases hverdict with
    | @overclosed before after hbefore =>
      refine ⟨fun hbalanced => hbalanced.not_overclosed (hbefore.overclosed after),
        .unmatchedClose hplace ?_⟩
      rw [htext]
      exact hbefore.isLeast_unmatchedClose after
    | @unclosed before inner indices hbefore hinner =>
      have hgreatest := hinner.isGreatest_unmatchedOpen before
      refine ⟨fun hbalanced => hbalanced.not_unmatchedOpen _ hgreatest.1,
        .unmatchedOpen hplace ?_ ?_⟩
      · rw [htext]
        exact (hbefore.inside hinner).not_unmatchedClose
      · rw [htext]
        exact hgreatest

/-- A row of tokens has no post-order exactly if its parentheses are not balanced, and then it is
known which one is at fault.  Otherwise all tokens but the parentheses are put out in an order in
which operands stay as they are, operators come after the operands before them, and groups come
before what follows them. -/
theorem postOrder_exact (tokens : List Token) :
    ((∃ error, postOrder tokens = .error error) ↔ ¬ Balanced (tokens.map sign)) ∧
    (∀ error, postOrder tokens = .error error → Complaint tokens error) ∧
    ∀ ordered, postOrder tokens = .ok ordered → ∃ order, Arranges tokens order ∧
      ordered.map some = order.map fun index => tokens[index]? := by
  refine ⟨⟨?_, ?_⟩, ?_, ?_⟩
  · rintro ⟨error, herror⟩
    exact (complaint_of_postOrder herror).1
  · intro hunbalanced
    cases hordered : postOrder tokens with
    | error error => exact ⟨error, rfl⟩
    | ok ordered => exact absurd (exists_arranges hordered).1 hunbalanced
  · intro error herror
    exact (complaint_of_postOrder herror).2
  · intro ordered hordered
    exact (exists_arranges hordered).2

/-- A row of tokens that all say the same about their place. -/
def rowOf (texts : List String) : List Token :=
  texts.map fun text => { text, position := 7 }

/-- The operator in front waits for all others, and equal tokens are put out once each.  The second
closing parenthesis is at fault although an opening one comes after it. -/
theorem postOrder_exact_misplaced :
    postOrder (rowOf ["|", "(", "a", "*", "*", ")", "a"]) = .ok (rowOf ["a", "*", "*", "a", "|"]) ∧
    (∃ order, Arranges (rowOf ["|", "(", "a", "*", "*", ")", "a"]) order ∧
      (rowOf ["a", "*", "*", "a", "|"]).map some =
        order.map fun index => (rowOf ["|", "(", "a", "*", "*", ")", "a"])[index]?) ∧
    postOrder (rowOf ["(", ")", ")", "("]) = .error ⟨.unmatchedClose, 7⟩ ∧
    Complaint (rowOf ["(", ")", ")", "("]) ⟨.unmatchedClose, 7⟩ := by
  have hordered : postOrder (rowOf ["|", "(", "a", "*", "*", ")", "a"]) =
      .ok (rowOf ["a", "*", "*", "a", "|"]) := rfl
  have hfault : postOrder (rowOf ["(", ")", ")", "("]) = .error ⟨.unmatchedClose, 7⟩ := rfl
  refine ⟨hordered, ?_, hfault, ?_⟩
  · exact (postOrder_exact _).2.2 _ hordered
  · exact (postOrder_exact _).2.1 _ hfault

end Arranged

end RegexAutomata.Token
