import RegexAutomata.Proofs.Nfa.FragmentEdges

/-!
# Fragments spell the words of their trees

The trails through the fragment of a tree, from its first state to the one at which it is left,
spell exactly the words of the tree.  A trail that enters the block of a part can leave it only by
the last state of that part, so it falls into a trail of the part and what comes after it.
-/

namespace RegexAutomata

open Computability

namespace Fragment

/-- What the trails through a fragment spell. -/
def Spells (base : Nat) (regex : Regex) : Prop :=
  ∀ word, Trail (Edge base regex) base word (base + exit regex : Nat) ↔ word ∈ regex.language

/-- The only way through is the edge itself. -/
theorem spells_char {base : Nat} {value : String} (hvalue : value ≠ epsilon) :
    Spells base (.char value) := by
  have hends : (base : Int) ≠ (base + 1 : Nat) := by omega
  have hsink : ∀ symbol target, ¬ Edge base (.char value) (base + 1 : Nat) symbol target :=
    fun symbol target => not_edge_exit rfl
  intro word
  constructor
  · intro htrail
    rcases htrail.exists_edge hends with
      ⟨next, hedge, -⟩ | ⟨symbol, next, rest, -, hedge, rfl, hrest⟩
    · exact absurd (edge_char.1 hedge).2.1.symm hvalue
    · obtain ⟨-, rfl, rfl⟩ := edge_char.1 hedge
      rw [hrest.eq_nil_of_sink hsink]
      rfl
  · rintro rfl
    exact .read hvalue (edge_char.2 ⟨rfl, rfl, rfl⟩) (.nil _)

/-- A fragment inside a larger relation of edges: its states have their own edges, and only the one
at which the fragment is left has edges that lead on. -/
structure Part (edge : Int → String → Int → Prop) (base : Nat) (regex : Regex)
    (exits : Int → Prop) : Prop where
  known : regex.isKnown
  own : ∀ source symbol target, Edge base regex source symbol target → edge source symbol target
  leave : ∀ source symbol target, Within base regex source → edge source symbol target →
    Edge base regex source symbol target ∨
      (source = (base + exit regex : Nat) ∧ symbol = epsilon ∧ exits target)

namespace Part

variable {edge : Int → String → Int → Prop} {base : Nat} {regex : Regex} {exits : Int → Prop}

theorem within_start (hpart : Part edge base regex exits) : Within base regex base := by
  have hexit := exit_lt_size hpart.known
  rw [Within]
  omega

/-- Every word of the part is spelled on the way through it. -/
theorem trail (hpart : Part edge base regex exits) (hspells : Spells base regex)
    {word : List String} (hword : word ∈ regex.language) :
    Trail edge base word (base + exit regex : Nat) :=
  ((hspells word).2 hword).mono hpart.own

/-- A word of the part also leads to what an edge from its last state leads to. -/
theorem trail_silent (hpart : Part edge base regex exits) (hspells : Spells base regex) {next : Int}
    (hedge : edge (base + exit regex : Nat) epsilon next) {word : List String}
    (hword : word ∈ regex.language) : Trail edge base word next := by
  have htrail := (hpart.trail hspells hword).append (.silent hedge (.nil next))
  rwa [List.append_nil] at htrail

/-- Without edges that lead on, only words of the part are spelled on the way through it. -/
theorem mem_language (hpart : Part edge base regex fun _ => False) (hspells : Spells base regex)
    {word : List String} (htrail : Trail edge base word (base + exit regex : Nat)) :
    word ∈ regex.language := by
  refine (hspells word).1 (htrail.of_closed (fun source symbol target hsource hedge => ?_)
    hpart.within_start)
  rcases hpart.leave source symbol target hsource hedge with hown | ⟨-, -, hnever⟩
  · exact ⟨hown, (within_of_edge hpart.known hown).2⟩
  · exact hnever.elim

/-- A trail from the start of a part to a place outside it spells a word of the part first.  An edge
back into the part can only lead to its start, and then one more word of the part follows. -/
theorem mem_mul (hpart : Part edge base regex exits) (hspells : Spells base regex)
    {rest : Language String} {final : Int} {word : List String}
    (hout : ∀ target suffix, exits target → ¬ Within base regex target →
      Trail edge target suffix final → suffix ∈ rest)
    (hback : ∀ target, exits target → Within base regex target →
      target = base ∧ regex.language * rest ≤ rest)
    (hfinal : ¬ Within base regex final) (htrail : Trail edge base word final) :
    word ∈ regex.language * rest := by
  have hstep : ∀ source symbol target, Within base regex source → edge source symbol target →
      (Edge base regex source symbol target ∧ Within base regex target) ∨
        (source = (base + exit regex : Nat) ∧ symbol = epsilon ∧ exits target) := by
    intro source symbol target hsource hedge
    rcases hpart.leave source symbol target hsource hedge with hown | hexit
    · exact Or.inl ⟨hown, (within_of_edge hpart.known hown).2⟩
    · exact Or.inr hexit
  have hagain : ∀ target again suffix, exits target → Within base regex target →
      Trail (Edge base regex) target again (base + exit regex : Nat) → suffix ∈ rest →
      again ++ suffix ∈ rest := by
    intro target again suffix hexit hwithin hinner hsuffix
    obtain ⟨rfl, hmul⟩ := hback target hexit hwithin
    exact hmul (Language.append_mem_mul ((hspells again).1 hinner) hsuffix)
  obtain ⟨own, suffix, rfl, hown, hsuffix⟩ :=
    htrail.escape hstep hout hagain hfinal hpart.within_start
  exact Language.append_mem_mul ((hspells own).1 hown) hsuffix

end Part

section Parts

variable {base : Nat} {left right inner : Regex}

theorem part_concat_left (hleft : left.isKnown) (hright : right.isKnown) :
    Part (Edge base (.concat left right)) base left fun id => id = (base + size left : Nat) where
  known := hleft
  own _ _ _ hown := (edge_concat hleft).2 (Or.inr (Or.inl hown))
  leave := by
    intro source symbol target hsource hedge
    rw [Within] at hsource
    rcases (edge_concat hleft).1 hedge with hlink | hown | hother
    · exact Or.inr hlink
    · exact Or.inl hown
    · have hbounds := source_bounds hright hother
      omega

theorem part_concat_right (hleft : left.isKnown) (hright : right.isKnown) :
    Part (Edge base (.concat left right)) (base + size left) right fun _ => False where
  known := hright
  own _ _ _ hown := (edge_concat hleft).2 (Or.inr (Or.inr hown))
  leave := by
    intro source symbol target hsource hedge
    have hexit := exit_lt_size hleft
    rw [Within] at hsource
    rcases (edge_concat hleft).1 hedge with hlink | hother | hown
    · omega
    · have hbounds := source_bounds hleft hother
      omega
    · exact Or.inl hown

theorem part_alternation_left (hleft : left.isKnown) (hright : right.isKnown) :
    Part (Edge base (.alternation left right)) (base + 2) left
      fun id => id = (base + 1 : Nat) where
  known := hleft
  own _ _ _ hown := (edge_alternation hleft hright).2 (Or.inr (Or.inr (Or.inl hown)))
  leave := by
    intro source symbol target hsource hedge
    rw [Within] at hsource
    rcases (edge_alternation hleft hright).1 hedge with hentry | hlink | hown | hlink | hother
    · omega
    · exact Or.inr hlink
    · exact Or.inl hown
    · omega
    · have hbounds := source_bounds hright hother
      omega

theorem part_alternation_right (hleft : left.isKnown) (hright : right.isKnown) :
    Part (Edge base (.alternation left right)) (base + 2 + size left) right
      fun id => id = (base + 1 : Nat) where
  known := hright
  own _ _ _ hown := (edge_alternation hleft hright).2 (Or.inr (Or.inr (Or.inr (Or.inr hown))))
  leave := by
    intro source symbol target hsource hedge
    have hexit := exit_lt_size hleft
    rw [Within] at hsource
    rcases (edge_alternation hleft hright).1 hedge with hentry | hlink | hother | hlink | hown
    · omega
    · omega
    · have hbounds := source_bounds hleft hother
      omega
    · exact Or.inr hlink
    · exact Or.inl hown

theorem part_star (hinner : inner.isKnown) :
    Part (Edge base (.star inner)) (base + 2) inner
      fun id => id = (base + 2 : Nat) ∨ id = (base + 1 : Nat) where
  known := hinner
  own _ _ _ hown := (edge_star hinner).2 (Or.inr (Or.inr hown))
  leave := by
    intro source symbol target hsource hedge
    rw [Within] at hsource
    rcases (edge_star hinner).1 hedge with hentry | hlink | hown
    · omega
    · exact Or.inr hlink
    · exact Or.inl hown

end Parts

/-- A trail goes through the left part to its end and then through the right one. -/
theorem spells_concat {base : Nat} {left right : Regex} (hleftKnown : left.isKnown)
    (hrightKnown : right.isKnown) (hleft : Spells base left)
    (hright : Spells (base + size left) right) : Spells base (.concat left right) := by
  have hfirst := @part_concat_left base left right hleftKnown hrightKnown
  have hsecond := @part_concat_right base left right hleftKnown hrightKnown
  have houtside : ¬ Within base left (base + size left : Nat) := by
    rw [Within]
    omega
  have hfinal : ¬ Within base left (base + size left + exit right : Nat) := by
    rw [Within]
    omega
  intro word
  rw [Regex.language, exit, ← Nat.add_assoc]
  constructor
  · intro htrail
    refine hfirst.mem_mul hleft ?_ ?_ hfinal htrail
    · rintro target suffix rfl - hrest
      exact hsecond.mem_language hright hrest
    · rintro target rfl hwithin
      exact absurd hwithin houtside
  · rintro ⟨first, hfirstWord, second, hsecondWord, rfl⟩
    have hlink : Edge base (.concat left right) (base + exit left : Nat) epsilon
        (base + size left : Nat) := (edge_concat hleftKnown).2 (Or.inl ⟨rfl, rfl, rfl⟩)
    exact (hfirst.trail_silent hleft hlink hfirstWord).append (hsecond.trail hright hsecondWord)

/-- A part from which every edge that leads on goes to the same last state, outside it. -/
theorem Part.mem_language_of_sink {edge : Int → String → Int → Prop} {base : Nat} {regex : Regex}
    {final : Int} (hpart : Part edge base regex fun id => id = final)
    (hspells : Spells base regex) (hfinal : ¬ Within base regex final)
    (hsink : ∀ symbol target, ¬ edge final symbol target) {word : List String}
    (htrail : Trail edge base word final) : word ∈ regex.language := by
  have hmul : word ∈ regex.language * 1 := by
    refine hpart.mem_mul hspells ?_ ?_ hfinal htrail
    · rintro target suffix rfl - hrest
      exact hrest.eq_nil_of_sink hsink
    · rintro target rfl hwithin
      exact absurd hwithin hfinal
  rwa [mul_one] at hmul

/-- A trail goes through one of both parts. -/
theorem spells_alternation {base : Nat} {left right : Regex} (hleftKnown : left.isKnown)
    (hrightKnown : right.isKnown) (hleft : Spells (base + 2) left)
    (hright : Spells (base + 2 + size left) right) : Spells base (.alternation left right) := by
  have hfirst := @part_alternation_left base left right hleftKnown hrightKnown
  have hsecond := @part_alternation_right base left right hleftKnown hrightKnown
  have hknown : (Regex.alternation left right).isKnown := by
    simp [Regex.isKnown, hleftKnown, hrightKnown]
  have hsink : ∀ symbol target,
      ¬ Edge base (.alternation left right) (base + 1 : Nat) symbol target :=
    fun symbol target => not_edge_exit hknown
  have houtsideLeft : ¬ Within (base + 2) left (base + 1 : Nat) := by
    rw [Within]
    omega
  have houtsideRight : ¬ Within (base + 2 + size left) right (base + 1 : Nat) := by
    rw [Within]
    omega
  have hends : (base : Int) ≠ (base + 1 : Nat) := by omega
  intro word
  rw [Regex.language, Language.mem_add, exit]
  constructor
  · intro htrail
    rcases htrail.exists_edge hends with
      ⟨next, hstep, hrest⟩ | ⟨symbol, next, rest, hread, hstep, -⟩
    · obtain ⟨-, rfl | rfl⟩ := (edge_alternation_start hleftKnown hrightKnown).1 hstep
      · exact Or.inl (hfirst.mem_language_of_sink hleft houtsideLeft hsink hrest)
      · exact Or.inr (hsecond.mem_language_of_sink hright houtsideRight hsink hrest)
    · exact absurd ((edge_alternation_start hleftKnown hrightKnown).1 hstep).1 hread
  · rintro (hword | hword)
    · have hleave : Edge base (.alternation left right) (base + 2 + exit left : Nat) epsilon
          (base + 1 : Nat) :=
        (edge_alternation hleftKnown hrightKnown).2 (Or.inr (Or.inl ⟨rfl, rfl, rfl⟩))
      exact .silent ((edge_alternation_start hleftKnown hrightKnown).2 ⟨rfl, Or.inl rfl⟩)
        (hfirst.trail_silent hleft hleave hword)
    · have hleave : Edge base (.alternation left right) (base + 2 + size left + exit right : Nat)
          epsilon (base + 1 : Nat) :=
        (edge_alternation hleftKnown hrightKnown).2
          (Or.inr (Or.inr (Or.inr (Or.inl ⟨rfl, rfl, rfl⟩))))
      exact .silent ((edge_alternation_start hleftKnown hrightKnown).2 ⟨rfl, Or.inr rfl⟩)
        (hsecond.trail_silent hright hleave hword)

/-- Rounds of a star lead to its last state, from each state whose silent edges lead into the part
and past it.  The first state and the one at which the part is left are such states, so one
induction on the rounds serves both. -/
theorem trail_rounds {base : Nat} {inner : Regex} (hknown : inner.isKnown)
    (hinner : Spells (base + 2) inner) {rounds : List (List String)}
    (hrounds : ∀ round ∈ rounds, round ∈ inner.language) {id : Int}
    (hid : ∀ target : Int, target = (base + 2 : Nat) ∨ target = (base + 1 : Nat) →
      Edge base (.star inner) id epsilon target) :
    Trail (Edge base (.star inner)) id rounds.flatten (base + 1 : Nat) := by
  induction rounds generalizing id with
  | nil => exact .silent (hid _ (Or.inr rfl)) (.nil _)
  | cons round rest ih =>
    rw [List.forall_mem_cons] at hrounds
    have hrest := ih hrounds.2 fun target htarget =>
      (edge_star hknown).2 (Or.inr (Or.inl ⟨rfl, rfl, htarget⟩))
    exact .silent (hid _ (Or.inl rfl)) (((part_star hknown).trail hinner hrounds.1).append hrest)

/-- A trail passes the part by, or goes through it again and again. -/
theorem spells_star {base : Nat} {inner : Regex} (hknown : inner.isKnown)
    (hinner : Spells (base + 2) inner) : Spells base (.star inner) := by
  have hpart := @part_star base inner hknown
  have hsink : ∀ symbol target, ¬ Edge base (.star inner) (base + 1 : Nat) symbol target :=
    fun symbol target => not_edge_exit (show (Regex.star inner).isKnown from hknown)
  have houtside : ¬ Within (base + 2) inner (base + 1 : Nat) := by
    rw [Within]
    omega
  have hrepeat : inner.language * inner.language∗ ≤ inner.language∗ := mul_kstar_le_kstar
  have hends : (base : Int) ≠ (base + 1 : Nat) := by omega
  intro word
  rw [Regex.language, exit]
  constructor
  · intro htrail
    rcases htrail.exists_edge hends with
      ⟨next, hstep, hrest⟩ | ⟨symbol, next, rest, hread, hstep, -⟩
    · obtain ⟨-, rfl | rfl⟩ := (edge_star_start hknown).1 hstep
      · refine hrepeat (hpart.mem_mul hinner ?_ ?_ houtside hrest)
        · rintro target suffix (rfl | rfl) hleft hsuffix
          · exact absurd hpart.within_start hleft
          · rw [hsuffix.eq_nil_of_sink hsink]
            exact Language.nil_mem_kstar _
        · rintro target (rfl | rfl) hwithin
          · exact ⟨rfl, hrepeat⟩
          · exact absurd hwithin houtside
      · rw [hrest.eq_nil_of_sink hsink]
        exact Language.nil_mem_kstar _
    · exact absurd ((edge_star_start hknown).1 hstep).1 hread
  · intro hword
    obtain ⟨rounds, rfl, hrounds⟩ := Language.mem_kstar.1 hword
    exact trail_rounds hknown hinner hrounds fun target htarget =>
      (edge_star_start hknown).2 ⟨rfl, htarget⟩

/-- The trails through a fragment spell the words of its tree. -/
theorem spells_language {regex : Regex} (hknown : regex.isKnown)
    (hsymbols : epsilon ∉ regex.values) (base : Nat) : Spells base regex := by
  induction regex generalizing base with
  | char value =>
    refine spells_char fun hvalue => hsymbols ?_
    rw [hvalue]
    exact List.mem_singleton_self _
  | concat left right ihLeft ihRight =>
    simp only [Regex.isKnown, Bool.and_eq_true] at hknown
    simp only [Regex.values, List.mem_append, not_or] at hsymbols
    exact spells_concat hknown.1 hknown.2 (ihLeft hknown.1 hsymbols.1 _)
      (ihRight hknown.2 hsymbols.2 _)
  | alternation left right ihLeft ihRight =>
    simp only [Regex.isKnown, Bool.and_eq_true] at hknown
    simp only [Regex.values, List.mem_append, not_or] at hsymbols
    exact spells_alternation hknown.1 hknown.2 (ihLeft hknown.1 hsymbols.1 _)
      (ihRight hknown.2 hsymbols.2 _)
  | star inner ih => exact spells_star hknown (ih hknown hsymbols _)
  | unknown kind mark => simp [Regex.isKnown] at hknown

end Fragment

namespace Nfa

/-- Counted from the front, the edges of an automaton are those of its states in their places. -/
theorem edge_natCast {nfa : Nfa} {place : Nat} {symbol : String} {target : Int} :
    nfa.Edge (place : Int) symbol target ↔ Arena.Edge 0 nfa.states (place : Int) symbol target := by
  constructor
  · rintro ⟨state, hstate, htarget⟩
    rw [find?_natCast] at hstate
    exact ⟨place, state, hstate, by rw [Nat.zero_add], htarget⟩
  · rintro ⟨other, state, hstate, hplace, htarget⟩
    obtain rfl : place = other := by omega
    exact ⟨state, by rw [find?_natCast, hstate], htarget⟩

/-- The automaton that a tree is assembled to has a path from its start to its finish for each word
of the tree, and for no other word. -/
theorem path_ofRegex_iff {regex : Regex} (hknown : regex.isKnown)
    (hsymbols : epsilon ∉ regex.values) :
    ∃ nfa, Nfa.ofRegex regex = .ok nfa ∧
      ∀ word, nfa.Path nfa.start word nfa.finish ↔ word ∈ regex.language := by
  refine ⟨_, ofRegex_eq hknown, fun word => ?_⟩
  rw [← Fragment.spells_language hknown hsymbols 0 word, Nat.zero_add]
  have hstart : Fragment.Within 0 regex 0 := by
    have hexit := Fragment.exit_lt_size hknown
    rw [Fragment.Within]
    omega
  constructor
  · intro hpath
    refine hpath.of_closed (fun source symbol target hsource hedge => ?_) hstart
    have hown : Fragment.Edge 0 regex source symbol target := by
      obtain ⟨place, rfl⟩ := Int.eq_ofNat_of_zero_le hsource.1
      exact Arena.edge_modify_accept.1 (edge_natCast.1 hedge)
    exact ⟨hown, (Fragment.within_of_edge hknown hown).2⟩
  · intro htrail
    apply htrail.mono
    intro source symbol target hedge
    obtain ⟨place, rfl⟩ := Int.eq_ofNat_of_zero_le (Fragment.within_of_edge hknown hedge).1.1
    exact edge_natCast.2 (Arena.edge_modify_accept.2 hedge)

theorem path_ofRegex_repeated_choice :
    (Regex.star (.alternation (.char "a") (.concat (.char "b") (.char "#")))).isKnown ∧
      epsilon ∉ (Regex.star (.alternation (.char "a") (.concat (.char "b") (.char "#")))).values ∧
      ∃ nfa, Nfa.ofRegex (.star (.alternation (.char "a") (.concat (.char "b") (.char "#")))) =
          .ok nfa ∧
        ∀ word, nfa.Path nfa.start word nfa.finish ↔
          word ∈ (Regex.star (.alternation (.char "a")
            (.concat (.char "b") (.char "#")))).language :=
  ⟨rfl, by decide, path_ofRegex_iff rfl (by decide)⟩

end Nfa
end RegexAutomata
