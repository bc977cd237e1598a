import RegexAutomata.Proofs.Position.AnnotatedTree
import RegexAutomata.Proofs.Position.FollowTable

/-!
# Positions that stand next to each other

If every character is read under a name of its own, then a word tells which positions it passes.  A
position comes first, comes last or follows another one exactly if it does so in some word.  This is
the converse of what is said about words in terms of these sets: no set holds a position too many,
since every position is passed by some word.
-/

namespace RegexAutomata

open Computability

namespace MarkedRegex

variable {α : Type} {marked left right inner node : MarkedRegex} {position next : Position}
  {set : List Position}

section Inhabited

/-- Every expression has a word. -/
theorem exists_mem_language (read : Position → String → α) (marked : MarkedRegex) :
    ∃ word, word ∈ marked.language read := by
  induction marked with
  | leaf value position => exact ⟨_, rfl⟩
  | concat left right ihLeft ihRight =>
    obtain ⟨first, hfirst⟩ := ihLeft
    obtain ⟨second, hsecond⟩ := ihRight
    exact ⟨first ++ second, Language.append_mem_mul hfirst hsecond⟩
  | alternation left right ihLeft _ =>
    obtain ⟨word, hword⟩ := ihLeft
    exact ⟨word, Or.inl hword⟩
  | star inner _ => exact ⟨[], Language.nil_mem_kstar _⟩

/-- Every position is passed by some word. -/
theorem exists_mem_after (read : Position → String → α) (hposition : position ∈ marked.positions) :
    ∃ rest, rest ∈ marked.after read position := by
  induction marked with
  | leaf value own =>
    obtain rfl : position = own := by simpa [positions, leaves] using hposition
    refine ⟨[], ?_⟩
    rw [after, if_pos rfl]
    exact Language.nil_mem_one
  | concat left right ihLeft ihRight =>
    rw [positions_concat, List.mem_append] at hposition
    rcases hposition with hleft | hright
    · obtain ⟨own, hown⟩ := ihLeft hleft
      obtain ⟨more, hmore⟩ := right.exists_mem_language read
      exact ⟨own ++ more, Or.inl (Language.append_mem_mul hown hmore)⟩
    · obtain ⟨rest, hrest⟩ := ihRight hright
      exact ⟨rest, Or.inr hrest⟩
  | alternation left right ihLeft ihRight =>
    rw [positions_alternation, List.mem_append] at hposition
    rcases hposition with hleft | hright
    · obtain ⟨rest, hrest⟩ := ihLeft hleft
      exact ⟨rest, Or.inl hrest⟩
    · obtain ⟨rest, hrest⟩ := ihRight hright
      exact ⟨rest, Or.inr hrest⟩
  | star inner ih =>
    obtain ⟨own, hown⟩ := ih hposition
    exact ⟨own ++ [], Language.append_mem_mul hown (Language.nil_mem_kstar _)⟩

end Inhabited

section Empty

variable {read : Position → String → α} {empty : Bool}

theorem nil_mem_add_heads_iff :
    [] ∈ emptyIf empty + marked.heads read set ↔ empty = true := by
  rw [Language.mem_add]
  constructor
  · rintro (hempty | ⟨position, -, value, -, rest, -, hnil⟩)
    · cases empty
      · exact hempty.elim
      · rfl
    · exact absurd hnil.symm (List.cons_ne_nil _ _)
  · rintro rfl
    exact Or.inl rfl

theorem cons_mem_add_heads_iff {symbol : α} {rest : List α} :
    symbol :: rest ∈ emptyIf empty + marked.heads read set ↔
      symbol :: rest ∈ marked.heads read set := by
  rw [Language.mem_add]
  apply or_iff_right
  intro hempty
  have hone := emptyIf_le_one _ hempty
  exact absurd hone (List.cons_ne_nil _ _)

theorem nil_mem_language_iff (read : Position → String → α) (hdistinct : marked.Distinct) :
    [] ∈ marked.language read ↔ marked.nullable = true := by
  rw [language_eq hdistinct, nil_mem_add_heads_iff]

theorem nil_mem_after_iff (read : Position → String → α) (hdistinct : marked.Distinct)
    (hposition : position ∈ marked.positions) :
    [] ∈ marked.after read position ↔ position ∈ marked.last := by
  rw [after_eq hdistinct hposition, nil_mem_add_heads_iff, decide_eq_true_iff]

end Empty

section Split

/-- A symbol in a row of two words stands in the first or in the second of them. -/
theorem append_eq_append_cons {first second front rest : List α} {symbol : α}
    (hword : first ++ second = front ++ symbol :: rest) :
    (∃ own, first = front ++ symbol :: own ∧ rest = own ++ second) ∨
      ∃ middle, second = middle ++ symbol :: rest := by
  rcases List.append_eq_append_iff.1 hword with ⟨middle, -, hsecond⟩ | ⟨middle, hfirst, hrest⟩
  · exact Or.inr ⟨middle, hsecond⟩
  · cases middle with
    | nil => exact Or.inr ⟨[], hrest.symm⟩
    | cons head own =>
      obtain ⟨rfl, rfl⟩ := List.cons.inj hrest
      exact Or.inl ⟨own, hfirst, rfl⟩

/-- A symbol in rounds of a star stands in one of them, and more rounds may come after it. -/
theorem exists_round_of_flatten {language : Language α} {rounds : List (List α)}
    (hrounds : ∀ round ∈ rounds, round ∈ language) {front rest : List α} {symbol : α}
    (hword : rounds.flatten = front ++ symbol :: rest) :
    ∃ before own more, before ++ symbol :: own ∈ language ∧ more ∈ language∗ ∧
      own ++ more = rest := by
  induction rounds generalizing front with
  | nil => simp at hword
  | cons round rounds ih =>
    rw [List.forall_mem_cons] at hrounds
    rw [List.flatten_cons] at hword
    rcases append_eq_append_cons hword with ⟨own, rfl, rfl⟩ | ⟨middle, hmiddle⟩
    · exact ⟨front, own, rounds.flatten, hrounds.1, Language.join_mem_kstar hrounds.2, rfl⟩
    · exact ih hrounds.2 hmiddle

end Split

section Named

variable {name : Position → α} (hname : Function.Injective name) {front rest : List α}

include hname

/-- What may come after a position is what comes in words after its name. -/
theorem mem_after_iff :
    rest ∈ marked.after (fun position _ => name position) position ↔ ∃ front,
      front ++ name position :: rest ∈ marked.language fun position _ => name position := by
  induction marked generalizing rest with
  | leaf value own =>
    rw [after, language]
    constructor
    · split
      · next hown =>
        rintro rfl
        exact ⟨[], by rw [hown]; rfl⟩
      · exact False.elim
    · rintro ⟨front, hfront⟩
      obtain ⟨rfl, hlast⟩ := List.append_eq_singleton_iff.1 hfront |>.resolve_right (by simp)
      obtain ⟨hown, rfl⟩ := List.cons.inj hlast
      rw [if_pos (hname hown).symm]
      exact Language.nil_mem_one
  | concat left right ihLeft ihRight =>
    rw [after, language, Language.mem_add]
    constructor
    · rintro (⟨own, hown, more, hmore, rfl⟩ | hrest)
      · obtain ⟨front, hfront⟩ := ihLeft.1 hown
        refine ⟨front, ?_⟩
        have hword := Language.append_mem_mul hfront hmore
        rwa [List.append_assoc, List.cons_append] at hword
      · obtain ⟨front, hfront⟩ := ihRight.1 hrest
        obtain ⟨first, hfirst⟩ := left.exists_mem_language fun position _ => name position
        refine ⟨first ++ front, ?_⟩
        rw [List.append_assoc]
        exact Language.append_mem_mul hfirst hfront
    · rintro ⟨front, first, hfirst, second, hsecond, hword⟩
      rcases append_eq_append_cons hword with ⟨own, rfl, rfl⟩ | ⟨middle, rfl⟩
      · exact Or.inl (Language.append_mem_mul (ihLeft.2 ⟨front, hfirst⟩) hsecond)
      · exact Or.inr (ihRight.2 ⟨middle, hsecond⟩)
  | alternation left right ihLeft ihRight =>
    rw [after, language, Language.mem_add, ihLeft, ihRight]
    simp only [Language.mem_add, exists_or]
  | star inner ih =>
    rw [after, language]
    constructor
    · rintro ⟨own, hown, more, hmore, rfl⟩
      obtain ⟨front, hfront⟩ := ih.1 hown
      refine ⟨front, ?_⟩
      have hrepeat : inner.language (fun position _ => name position) *
          (inner.language fun position _ => name position)∗ ≤
          (inner.language fun position _ => name position)∗ := mul_kstar_le_kstar
      have hword := hrepeat (Language.append_mem_mul hfront hmore)
      rwa [List.append_assoc, List.cons_append] at hword
    · rintro ⟨front, hfront⟩
      obtain ⟨rounds, hword, hrounds⟩ := Language.mem_kstar.1 hfront
      obtain ⟨before, own, more, hown, hmore, rfl⟩ := exists_round_of_flatten hrounds hword.symm
      exact Language.append_mem_mul (ih.2 ⟨before, hown⟩) hmore

theorem cons_mem_heads_iff (hset : set ⊆ marked.positions) :
    name position :: rest ∈ marked.heads (fun position _ => name position) set ↔
      position ∈ set ∧ rest ∈ marked.after (fun position _ => name position) position := by
  constructor
  · rintro ⟨own, hown, value, -, tail, htail, hword⟩
    obtain ⟨hsame, rfl⟩ := List.cons.inj hword
    obtain rfl := hname hsame
    exact ⟨hown, htail⟩
  · rintro ⟨hposition, hrest⟩
    obtain ⟨⟨_, value⟩, hleaf, rfl⟩ := List.mem_map.1 (hset hposition)
    exact ⟨_, hposition, value, hleaf, rest, hrest, rfl⟩

theorem cons_mem_language_iff (hdistinct : marked.Distinct) :
    name position :: rest ∈ marked.language (fun position _ => name position) ↔
      position ∈ marked.first ∧
        rest ∈ marked.after (fun position _ => name position) position := by
  rw [language_eq hdistinct, cons_mem_add_heads_iff, cons_mem_heads_iff hname marked.first_subset]

theorem cons_mem_after_iff (hdistinct : marked.Distinct) (hposition : position ∈ marked.positions) :
    name next :: rest ∈ marked.after (fun position _ => name position) position ↔
      next ∈ marked.followers position ∧
        rest ∈ marked.after (fun position _ => name position) next := by
  rw [after_eq hdistinct hposition, cons_mem_add_heads_iff,
    cons_mem_heads_iff hname (marked.followers_subset position)]

end Named

section Words

/-- The words of a marked expression, each character being read as its position. -/
def words (marked : MarkedRegex) : Language Position :=
  marked.language fun position _ => position

def wordsAfter (marked : MarkedRegex) (position : Position) : Language Position :=
  marked.after (fun position _ => position) position

variable {rest : List Position}

theorem mem_wordsAfter_iff :
    rest ∈ marked.wordsAfter position ↔ ∃ front, front ++ position :: rest ∈ marked.words :=
  mem_after_iff Function.injective_id

theorem cons_mem_words_iff (hdistinct : marked.Distinct) :
    position :: rest ∈ marked.words ↔
      position ∈ marked.first ∧ rest ∈ marked.wordsAfter position :=
  cons_mem_language_iff Function.injective_id hdistinct

theorem cons_mem_wordsAfter_iff (hdistinct : marked.Distinct)
    (hposition : position ∈ marked.positions) :
    next :: rest ∈ marked.wordsAfter position ↔
      next ∈ marked.followers position ∧ rest ∈ marked.wordsAfter next :=
  cons_mem_after_iff Function.injective_id hdistinct hposition

/-- The first positions are those that words start with. -/
theorem mem_first_iff (hdistinct : marked.Distinct) :
    position ∈ marked.first ↔ ∃ rest, position :: rest ∈ marked.words := by
  simp only [cons_mem_words_iff hdistinct, exists_and_left]
  refine (and_iff_left_of_imp fun hfirst => ?_).symm
  exact exists_mem_after _ (marked.first_subset hfirst)

/-- The last positions are those that words end with. -/
theorem mem_last_iff (hdistinct : marked.Distinct) :
    position ∈ marked.last ↔ ∃ front, front ++ [position] ∈ marked.words := by
  rw [← mem_wordsAfter_iff]
  by_cases hposition : position ∈ marked.positions
  · exact (nil_mem_after_iff _ hdistinct hposition).symm
  · have hlast : position ∉ marked.last := fun hin => hposition (marked.last_subset hin)
    rw [wordsAfter, after_eq_zero hposition]
    exact iff_of_false hlast id

/-- The followers of a position are those that come right after it in some word. -/
theorem mem_followers_iff (hdistinct : marked.Distinct) (hposition : position ∈ marked.positions) :
    next ∈ marked.followers position ↔
      ∃ front rest, front ++ position :: next :: rest ∈ marked.words := by
  rw [exists_comm]
  simp only [← mem_wordsAfter_iff, cons_mem_wordsAfter_iff hdistinct hposition, exists_and_left]
  refine (and_iff_left_of_imp fun hnext => ?_).symm
  exact exists_mem_after _ (marked.followers_subset position hnext)

end Words

/-- The leaves of a subtree stand in the tree in the same order. -/
theorem leaves_sublist (hnode : node ∈ marked.subtrees) : node.leaves.Sublist marked.leaves := by
  induction marked with
  | leaf value position =>
    rw [List.mem_singleton.1 hnode]
  | concat left right ihLeft ihRight =>
    rcases List.mem_cons.1 hnode with rfl | hpart
    · exact .refl _
    · rcases List.mem_append.1 hpart with hleft | hright
      · exact (ihLeft hleft).trans (List.sublist_append_left _ _)
      · exact (ihRight hright).trans (List.sublist_append_right _ _)
  | alternation left right ihLeft ihRight =>
    rcases List.mem_cons.1 hnode with rfl | hpart
    · exact .refl _
    · rcases List.mem_append.1 hpart with hleft | hright
      · exact (ihLeft hleft).trans (List.sublist_append_left _ _)
      · exact (ihRight hright).trans (List.sublist_append_right _ _)
  | star inner ih =>
    rcases List.mem_cons.1 hnode with rfl | hpart
    · exact .refl _
    · exact ih hpart

theorem Distinct.subtree (hdistinct : marked.Distinct) (hnode : node ∈ marked.subtrees) :
    node.Distinct :=
  List.Nodup.sublist ((leaves_sublist hnode).map Prod.fst) hdistinct

end MarkedRegex

/-- The notes on a node are true of these words: whether the empty one is among them, which
positions come first and which come last. -/
def NodeNotes.TrueOf (notes : NodeNotes) (words : Language Position) : Prop :=
  (notes.nullable = true ↔ [] ∈ words) ∧
    (∀ position, position ∈ notes.first ↔ ∃ rest, position :: rest ∈ words) ∧
    ∀ position, position ∈ notes.last ↔ ∃ front, front ++ [position] ∈ words

/-- The table lists the positions that come right after a position in some of these words, and no
others. -/
def FollowTable.FollowsIn (table : FollowTable) (words : Language Position) (position : Position) :
    Prop :=
  ∃ followers, table.followersOf position = .ok followers ∧
    ∀ next, next ∈ followers ↔ ∃ front rest, front ++ position :: next :: rest ∈ words

def AnnotatedRegex.words (tree : AnnotatedRegex) : Language Position :=
  tree.bare.words

/-- What an annotated tree says of its words is true of them. -/
structure Annotated.Truthful (annotated : Annotated) : Prop where
  notes : ∀ node ∈ annotated.root.subtrees, node.notes.TrueOf node.words
  follow : ∀ position ∈ annotated.root.positions,
    annotated.table.FollowsIn annotated.root.words position

namespace MarkedRegex

variable {marked : MarkedRegex}

theorem trueOf_words (hdistinct : marked.Distinct) : marked.notes.TrueOf marked.words :=
  ⟨(nil_mem_language_iff _ hdistinct).symm, fun _ => mem_first_iff hdistinct,
    fun _ => mem_last_iff hdistinct⟩

theorem followsIn_words (hdistinct : marked.Distinct) {position : Position}
    (hposition : position ∈ marked.positions) :
    (FollowTable.ofMarked marked).FollowsIn marked.words position :=
  ⟨_, FollowTable.followersOf_ofMarked hposition, fun _ => mem_followers_iff hdistinct hposition⟩

theorem truthful_ofMarked (hdistinct : marked.Distinct) :
    (Annotated.ofMarked marked).Truthful where
  notes node hnode := by
    rw [Annotated.ofMarked, subtrees_withNotes] at hnode
    obtain ⟨own, hown, rfl⟩ := List.mem_map.1 hnode
    rw [notes_withNotes, AnnotatedRegex.words, bare_withNotes]
    exact trueOf_words (hdistinct.subtree hown)
  follow position hposition := by
    have hwords : (Annotated.ofMarked marked).root.words = marked.words :=
      congrArg words marked.bare_withNotes
    rw [Annotated.ofMarked, positions_withNotes] at hposition
    rw [Annotated.table_ofMarked, hwords]
    exact followsIn_words hdistinct hposition

end MarkedRegex

namespace Regex

open MarkedRegex

/-- Marking a tree of known nodes succeeds, and what each node of the marked tree says about its
words is true of them: whether the empty one is among them, which positions come first and which
come last.  The table of followers lists the positions that come right after a position in some
word of the whole tree, and no others.  The same is true of what is written down when the tree is
annotated. -/
theorem marked_exact {regex : Regex} (hknown : regex.isKnown) :
    ∃ root annotated, regex.marked = .ok root ∧ regex.annotate = .ok annotated ∧
      root.unmarked = .concat regex (.char endMarker) ∧
      root.positions = consecutive 0 root.leaves.length ∧
      (∀ node ∈ root.subtrees,
        (node.nullable = true ↔ [] ∈ node.words) ∧
        (∀ position, position ∈ node.first ↔ ∃ rest, position :: rest ∈ node.words) ∧
        ∀ position, position ∈ node.last ↔ ∃ front, front ++ [position] ∈ node.words) ∧
      (∀ position ∈ root.positions, ∃ followers,
        (FollowTable.ofMarked root).followersOf position = .ok followers ∧
        ∀ next, next ∈ followers ↔
          ∃ front rest, front ++ position :: next :: rest ∈ root.words) ∧
      annotated.root.bare = root ∧ annotated.Truthful := by
  obtain ⟨marked, finish, hmarked, rfl, hpositions, -⟩ := marked_eq hknown
  have hdistinct := distinct_of_consecutive hpositions
  exact ⟨_, _, hmarked, annotate_of_marked hmarked, rfl, hpositions,
    fun _ hnode => trueOf_words (hdistinct.subtree hnode),
    fun _ hposition => followsIn_words hdistinct hposition, bare_withNotes _,
    truthful_ofMarked hdistinct⟩

/-- Two repetitions in a row, one of them around an alternation. -/
def repeatedPair : Regex :=
  .concat (.star (.alternation (.char "a") (.char "b"))) (.star (.star (.char "a")))

theorem marked_exact_repeatedPair :
    repeatedPair.isKnown ∧
    ∃ root annotated, repeatedPair.marked = .ok root ∧ repeatedPair.annotate = .ok annotated ∧
      root.unmarked = .concat repeatedPair (.char endMarker) ∧
      root.positions = consecutive 0 root.leaves.length ∧
      (∀ node ∈ root.subtrees,
        (node.nullable = true ↔ [] ∈ node.words) ∧
        (∀ position, position ∈ node.first ↔ ∃ rest, position :: rest ∈ node.words) ∧
        ∀ position, position ∈ node.last ↔ ∃ front, front ++ [position] ∈ node.words) ∧
      (∀ position ∈ root.positions, ∃ followers,
        (FollowTable.ofMarked root).followersOf position = .ok followers ∧
        ∀ next, next ∈ followers ↔
          ∃ front rest, front ++ position :: next :: rest ∈ root.words) ∧
      annotated.root.bare = root ∧ annotated.Truthful :=
  ⟨rfl, marked_exact rfl⟩

end Regex
end RegexAutomata
