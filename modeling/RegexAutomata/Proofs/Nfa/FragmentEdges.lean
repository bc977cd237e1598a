import RegexAutomata.Proofs.Nfa.Layout
import RegexAutomata.Proofs.Nfa.Path

/-!
# The edges of a fragment

Which edges the states of a fragment have, by the shape of its tree: those of the parts, and the
edges that join them.  No edge leaves the block of states that the fragment takes.
-/

namespace RegexAutomata

namespace Arena

/-- The edges of consecutive states of which the first has the number `base`. -/
def Edge (base : Nat) (block : Arena) (source : Int) (symbol : String)
    (target : Int) : Prop :=
  ∃ (place : Nat) (state : Nfa.State),
    block[place]? = some state ∧ source = (base + place : Nat) ∧ target ∈ state.targets symbol

variable {base : Nat} {source target : Int} {symbol : String}

/-- States further on have their edges from where the ones before them end. -/
theorem edge_append {before block : Arena} :
    Edge base (before ++ block) source symbol target ↔
      Edge base before source symbol target ∨
        Edge (base + before.size) block source symbol target := by
  constructor
  · rintro ⟨place, state, hstate, hsource, htarget⟩
    by_cases hplace : place < before.size
    · rw [Array.getElem?_append_left hplace] at hstate
      exact Or.inl ⟨place, state, hstate, hsource, htarget⟩
    · rw [Array.getElem?_append_right (by omega)] at hstate
      exact Or.inr ⟨place - before.size, state, hstate, by rw [hsource]; congr 1; omega, htarget⟩
  · rintro (⟨place, state, hstate, hsource, htarget⟩ | ⟨place, state, hstate, hsource, htarget⟩)
    · have hplace : place < before.size := (Array.getElem?_eq_some_iff.1 hstate).1
      exact ⟨place, state, by rwa [Array.getElem?_append_left hplace], hsource, htarget⟩
    · refine ⟨before.size + place, state, ?_, by rw [hsource, Nat.add_assoc], htarget⟩
      rw [Array.getElem?_append_right (by omega), Nat.add_sub_cancel_left]
      exact hstate

/-- A new edge joins those that are there. -/
theorem edge_modify_link {block : Arena} {place : Nat} (hplace : place < block.size)
    {label : String} {goal : Int} :
    Edge base (block.modify place (Nfa.State.link label goal)) source symbol target ↔
      (source = (base + place : Nat) ∧ symbol = label ∧ target = goal) ∨
        Edge base block source symbol target := by
  have hfound : block[place]? = some block[place] := Array.getElem?_eq_getElem hplace
  constructor
  · rintro ⟨other, state, hstate, hsource, htarget⟩
    rw [Array.getElem?_modify] at hstate
    split at hstate
    · next hother =>
      subst hother
      rw [hfound, Option.map_some, Option.some.injEq] at hstate
      rw [← hstate, Nfa.State.mem_targets_link] at htarget
      rcases htarget with ⟨hsymbol, hgoal⟩ | htarget
      · exact Or.inl ⟨hsource, hsymbol, hgoal⟩
      · exact Or.inr ⟨place, block[place], hfound, hsource, htarget⟩
    · exact Or.inr ⟨other, state, hstate, hsource, htarget⟩
  · rintro (⟨hsource, hsymbol, hgoal⟩ | ⟨other, state, hstate, hsource, htarget⟩)
    · refine ⟨place, Nfa.State.link label goal block[place], ?_, hsource, ?_⟩
      · simp [Array.getElem?_modify, hfound]
      · exact Nfa.State.mem_targets_link.2 (Or.inl ⟨hsymbol, hgoal⟩)
    · by_cases hother : place = other
      · subst hother
        refine ⟨place, Nfa.State.link label goal state, ?_, hsource, ?_⟩
        · simp [Array.getElem?_modify, hstate]
        · exact Nfa.State.mem_targets_link.2 (Or.inr htarget)
      · exact ⟨other, state, by rwa [Array.getElem?_modify, if_neg hother], hsource, htarget⟩

theorem edge_modify_accept {block : Arena} {place : Nat} :
    Edge base (block.modify place Nfa.State.accept) source symbol target ↔
      Edge base block source symbol target := by
  constructor
  · rintro ⟨other, state, hstate, hsource, htarget⟩
    rw [Array.getElem?_modify] at hstate
    split at hstate
    · obtain ⟨old, hold, rfl⟩ := Option.map_eq_some_iff.1 hstate
      exact ⟨other, old, hold, hsource, htarget⟩
    · exact ⟨other, state, hstate, hsource, htarget⟩
  · rintro ⟨other, state, hstate, hsource, htarget⟩
    by_cases hother : place = other
    · refine ⟨other, state.accept, ?_, hsource, htarget⟩
      rw [Array.getElem?_modify, if_pos hother, hstate, Option.map_some]
    · exact ⟨other, state, by rwa [Array.getElem?_modify, if_neg hother], hsource, htarget⟩

end Arena

namespace Fragment

open Arena

section Shapes

variable {base : Nat} {source target : Int} {symbol : String}

theorem edges_of_mem_ends (base : Nat) : ∀ state ∈ ends base, state.edges = [] := by
  simp [ends]

theorem not_edge_ends {first : Nat} : ¬ Edge base (ends first) source symbol target := by
  rintro ⟨place, state, hstate, -, htarget⟩
  have hedges := edges_of_mem_ends first state (Array.mem_of_getElem? hstate)
  rw [Nfa.State.targets, hedges] at htarget
  cases htarget

/-- The edges of the fragment of a tree whose first state has the number `base`. -/
def Edge (base : Nat) (regex : Regex) : Int → String → Int → Prop :=
  Arena.Edge base (states base regex)

theorem edge_char {value : String} :
    Edge base (.char value) source symbol target ↔
      source = base ∧ symbol = value ∧ target = (base + 1 : Nat) := by
  rw [Edge, states, edge_modify_link (by simp)]
  simp [not_edge_ends]

theorem edge_concat {left right : Regex} (hleft : left.isKnown) :
    Edge base (.concat left right) source symbol target ↔
      (source = (base + exit left : Nat) ∧ symbol = epsilon ∧
          target = (base + size left : Nat)) ∨
        Edge base left source symbol target ∨
        Edge (base + size left) right source symbol target := by
  have hexit := exit_lt_size hleft
  rw [Edge, states, edge_append, edge_modify_link (by simpa using hexit), Array.size_modify,
    size_states, or_assoc]
  rfl

theorem edge_alternation {left right : Regex} (hleft : left.isKnown) (hright : right.isKnown) :
    Edge base (.alternation left right) source symbol target ↔
      (source = base ∧ symbol = epsilon ∧
          (target = (base + 2 : Nat) ∨ target = (base + 2 + size left : Nat))) ∨
        (source = (base + 2 + exit left : Nat) ∧ symbol = epsilon ∧
          target = (base + 1 : Nat)) ∨
        Edge (base + 2) left source symbol target ∨
        (source = (base + 2 + size left + exit right : Nat) ∧ symbol = epsilon ∧
          target = (base + 1 : Nat)) ∨
        Edge (base + 2 + size left) right source symbol target := by
  have hexitLeft := exit_lt_size hleft
  have hexitRight := exit_lt_size hright
  rw [Edge, states, edge_append, edge_append, edge_modify_link (by simp),
    edge_modify_link (by simp), edge_modify_link (by simpa using hexitLeft),
    edge_modify_link (by simpa using hexitRight)]
  simp only [not_edge_ends, Array.size_modify, size_ends, size_states, Nat.add_zero, or_false]
  rw [← Edge, ← Edge]
  tauto

theorem edge_star {inner : Regex} (hinner : inner.isKnown) :
    Edge base (.star inner) source symbol target ↔
      (source = base ∧ symbol = epsilon ∧
          (target = (base + 2 : Nat) ∨ target = (base + 1 : Nat))) ∨
        (source = (base + 2 + exit inner : Nat) ∧ symbol = epsilon ∧
          (target = (base + 2 : Nat) ∨ target = (base + 1 : Nat))) ∨
        Edge (base + 2) inner source symbol target := by
  have hexit := exit_lt_size hinner
  rw [Edge, states, edge_append, edge_modify_link (by simp), edge_modify_link (by simp),
    edge_modify_link (by simpa using hexit), edge_modify_link (by simpa using hexit)]
  simp only [not_edge_ends, Array.size_modify, size_ends, Nat.add_zero, or_false]
  rw [← Edge]
  tauto

end Shapes

/-- The number belongs to a state of the block that a fragment takes. -/
def Within (base : Nat) (regex : Regex) (id : Int) : Prop :=
  (base : Int) ≤ id ∧ id < (base + size regex : Nat)

/-- Edges stay in the block. -/
theorem within_of_edge {base : Nat} {regex : Regex} (hknown : regex.isKnown)
    {source target : Int} {symbol : String} (hedge : Edge base regex source symbol target) :
    Within base regex source ∧ Within base regex target := by
  simp only [Within]
  induction regex generalizing base with
  | char value =>
    rw [edge_char] at hedge
    simp only [size]
    omega
  | concat left right ihLeft ihRight =>
    simp only [Regex.isKnown, Bool.and_eq_true] at hknown
    have hleft := exit_lt_size hknown.1
    have hright := exit_lt_size hknown.2
    rw [edge_concat hknown.1] at hedge
    simp only [size]
    rcases hedge with hedge | hedge | hedge
    · omega
    · have hparts := ihLeft hknown.1 hedge
      omega
    · have hparts := ihRight hknown.2 hedge
      omega
  | alternation left right ihLeft ihRight =>
    simp only [Regex.isKnown, Bool.and_eq_true] at hknown
    have hleft := exit_lt_size hknown.1
    have hright := exit_lt_size hknown.2
    rw [edge_alternation hknown.1 hknown.2] at hedge
    simp only [size]
    rcases hedge with hedge | hedge | hedge | hedge | hedge
    · omega
    · omega
    · have hparts := ihLeft hknown.1 hedge
      omega
    · omega
    · have hparts := ihRight hknown.2 hedge
      omega
  | star inner ih =>
    have hinner : inner.isKnown := hknown
    have hexit := exit_lt_size hinner
    rw [edge_star hinner] at hedge
    simp only [size]
    rcases hedge with hedge | hedge | hedge
    · omega
    · omega
    · have hparts := ih hinner hedge
      omega
  | unknown kind mark => simp [Regex.isKnown] at hknown

theorem source_bounds {base : Nat} {regex : Regex} (hknown : regex.isKnown)
    {source target : Int} {symbol : String} (hedge : Edge base regex source symbol target) :
    (base : Int) ≤ source ∧ source < (base + size regex : Nat) :=
  (within_of_edge hknown hedge).1

/-- No edge leaves the state at which a fragment is left. -/
theorem not_edge_exit {base : Nat} {regex : Regex} (hknown : regex.isKnown) {symbol : String}
    {target : Int} : ¬ Edge base regex (base + exit regex : Nat) symbol target := by
  induction regex generalizing base with
  | char value =>
    rw [edge_char, exit]
    omega
  | concat left right _ ihRight =>
    simp only [Regex.isKnown, Bool.and_eq_true] at hknown
    have hleft := exit_lt_size hknown.1
    rw [edge_concat hknown.1, exit, ← Nat.add_assoc]
    rintro (hlink | hedge | hedge)
    · omega
    · have hbounds := source_bounds hknown.1 hedge
      omega
    · exact ihRight hknown.2 hedge
  | alternation left right _ _ =>
    simp only [Regex.isKnown, Bool.and_eq_true] at hknown
    rw [edge_alternation hknown.1 hknown.2, exit]
    rintro (hlink | hlink | hedge | hlink | hedge)
    · omega
    · omega
    · have hbounds := source_bounds hknown.1 hedge
      omega
    · omega
    · have hbounds := source_bounds hknown.2 hedge
      omega
  | star inner _ =>
    have hinner : inner.isKnown := hknown
    rw [edge_star hinner, exit]
    rintro (hlink | hlink | hedge)
    · omega
    · omega
    · have hbounds := source_bounds hinner hedge
      omega
  | unknown kind mark => simp [Regex.isKnown] at hknown

/-- From the first state of an alternation silent edges lead into both branches. -/
theorem edge_alternation_start {base : Nat} {left right : Regex} (hleft : left.isKnown)
    (hright : right.isKnown) {symbol : String} {target : Int} :
    Edge base (.alternation left right) base symbol target ↔
      symbol = epsilon ∧ (target = (base + 2 : Nat) ∨ target = (base + 2 + size left : Nat)) := by
  rw [edge_alternation hleft hright]
  constructor
  · rintro (⟨-, hentry⟩ | hlink | hedge | hlink | hedge)
    · exact hentry
    · omega
    · have hbounds := source_bounds hleft hedge
      omega
    · omega
    · have hbounds := source_bounds hright hedge
      omega
  · exact fun hentry => Or.inl ⟨rfl, hentry⟩

/-- From the first state of a star silent edges lead into the part and past it. -/
theorem edge_star_start {base : Nat} {inner : Regex} (hinner : inner.isKnown) {symbol : String}
    {target : Int} :
    Edge base (.star inner) base symbol target ↔
      symbol = epsilon ∧ (target = (base + 2 : Nat) ∨ target = (base + 1 : Nat)) := by
  rw [edge_star hinner]
  constructor
  · rintro (⟨-, hentry⟩ | hlink | hedge)
    · exact hentry
    · omega
    · have hbounds := source_bounds hinner hedge
      omega
  · exact fun hentry => Or.inl ⟨rfl, hentry⟩

end Fragment
end RegexAutomata
