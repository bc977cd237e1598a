import RegexAutomata.Nfa.Fragment
import RegexAutomata.Proofs.Regex.Language

/-!
# Where the states of a fragment lie

The fragment of a tree takes consecutive places of the arena from the next free one on, and
nothing that was in the arena before is changed.  `Fragment.states` writes these states down without
an arena; assembling a fragment appends exactly them.  Each of them carries its place as its number.
-/

namespace RegexAutomata

namespace Arena

variable {before block : Arena}

theorem modify_append_left {place : Nat} (hplace : place < before.size)
    (change : Nfa.State → Nfa.State) :
    (before ++ block).modify place change = before.modify place change ++ block := by
  apply Array.ext_getElem?
  intro index
  simp only [Array.getElem?_modify, Array.getElem?_append, Array.size_modify]
  grind

theorem modify_append_right {count : Nat} (hcount : before.size = count) (place : Nat)
    (change : Nfa.State → Nfa.State) :
    (before ++ block).modify (count + place) change = before ++ block.modify place change := by
  subst hcount
  apply Array.ext_getElem?
  intro index
  simp only [Array.getElem?_modify, Array.getElem?_append]
  grind

/-- The states carry the numbers from `first` on, in the order of their places. -/
def NumberedFrom (first : Nat) (block : Arena) : Prop :=
  ∀ place state, block[place]? = some state → state.id = first + place

variable {first : Nat}

theorem numberedFrom_empty : NumberedFrom first #[] := by
  simp [NumberedFrom]

theorem NumberedFrom.append (hbefore : NumberedFrom first before)
    (hblock : NumberedFrom (first + before.size) block) :
    NumberedFrom first (before ++ block) := by
  intro place state hstate
  rw [Array.getElem?_append] at hstate
  split at hstate
  · exact hbefore place state hstate
  · rw [hblock _ state hstate]
    omega

/-- New edges leave the numbers as they are. -/
theorem NumberedFrom.modify_link (hblock : NumberedFrom first block) (place : Nat)
    (symbol : String) (target : StateNumber) :
    NumberedFrom first (block.modify place (Nfa.State.link symbol target)) := by
  intro other state hstate
  rw [Array.getElem?_modify] at hstate
  split at hstate
  · obtain ⟨old, hold, rfl⟩ := Option.map_eq_some_iff.1 hstate
    exact hblock other old hold
  · exact hblock other state hstate

end Arena

namespace Fragment

open Assembly Nfa.State

def size : Regex → Nat
  | .char _ => 2
  | .concat left right => size left + size right
  | .alternation left right => 2 + size left + size right
  | .star inner => 2 + size inner
  | .unknown _ _ => 0

/-- How far behind its first state a fragment is left; it is always entered at the first. -/
def exit : Regex → Nat
  | .char _ => 1
  | .concat left right => size left + exit right
  | .alternation _ _ => 1
  | .star _ => 1
  | .unknown _ _ => 0

def ends (base : Nat) : Arena :=
  #[{ id := base }, { id := base + 1 }]

/-- The states of the fragment of a tree whose first state has the number `base`. -/
def states (base : Nat) : Regex → Arena
  | .char value => (ends base).modify 0 (link value (base + 1 : Nat))
  | .concat left right =>
    (states base left).modify (exit left) (link epsilon (base + size left : Nat)) ++
      states (base + size left) right
  | .alternation left right =>
    ((ends base).modify 0 (link epsilon (base + 2 : Nat))).modify 0
        (link epsilon (base + 2 + size left : Nat)) ++
      ((states (base + 2) left).modify (exit left) (link epsilon (base + 1 : Nat)) ++
        (states (base + 2 + size left) right).modify (exit right)
          (link epsilon (base + 1 : Nat)))
  | .star inner =>
    ((ends base).modify 0 (link epsilon (base + 2 : Nat))).modify 0
        (link epsilon (base + 1 : Nat)) ++
      ((states (base + 2) inner).modify (exit inner) (link epsilon (base + 2 : Nat))).modify
        (exit inner) (link epsilon (base + 1 : Nat))
  | .unknown _ _ => #[]

@[simp]
theorem size_ends (base : Nat) : (ends base).size = 2 := rfl

@[simp]
theorem size_states (base : Nat) (regex : Regex) : (states base regex).size = size regex := by
  induction regex generalizing base with
  | char value => simp [states, size]
  | concat left right ihLeft ihRight => simp [states, size, ihLeft, ihRight]
  | alternation left right ihLeft ihRight => simp [states, size, ihLeft, ihRight, Nat.add_assoc]
  | star inner ih => simp [states, size, ih]
  | unknown kind mark => rfl

theorem numberedFrom_ends (base : Nat) : Arena.NumberedFrom base (ends base) := by
  intro place state hstate
  rcases place with - | - | place
  · exact Option.some.inj hstate ▸ rfl
  · exact Option.some.inj hstate ▸ rfl
  · rw [Array.getElem?_eq_none (by simp)] at hstate
    cases hstate

theorem numberedFrom_states (base : Nat) (regex : Regex) :
    Arena.NumberedFrom base (states base regex) := by
  induction regex generalizing base with
  | char value => exact (numberedFrom_ends base).modify_link _ _ _
  | concat left right ihLeft ihRight =>
    refine ((ihLeft base).modify_link _ _ _).append ?_
    rw [Array.size_modify, size_states]
    exact ihRight _
  | alternation left right ihLeft ihRight =>
    refine (((numberedFrom_ends base).modify_link _ _ _).modify_link _ _ _).append ?_
    rw [Array.size_modify, Array.size_modify, size_ends]
    refine ((ihLeft _).modify_link _ _ _).append ?_
    rw [Array.size_modify, size_states]
    exact (ihRight _).modify_link _ _ _
  | star inner ih =>
    refine (((numberedFrom_ends base).modify_link _ _ _).modify_link _ _ _).append ?_
    rw [Array.size_modify, Array.size_modify, size_ends]
    exact ((ih _).modify_link _ _ _).modify_link _ _ _
  | unknown kind mark => exact Arena.numberedFrom_empty

/-- A fragment is left at one of its own states. -/
theorem exit_lt_size {regex : Regex} (hknown : regex.isKnown) : exit regex < size regex := by
  induction regex with
  | char value => exact Nat.one_lt_two
  | concat left right _ ihRight =>
    simp only [Regex.isKnown, Bool.and_eq_true] at hknown
    have hright := ihRight hknown.2
    simp only [exit, size]
    omega
  | alternation left right _ _ => simp only [exit, size]; omega
  | star inner _ => simp only [exit, size]; omega
  | unknown kind mark => simp [Regex.isKnown] at hknown

/-- A fragment that is assembled at the end of an arena. -/
def placed (base : Nat) (regex : Regex) : Fragment :=
  ⟨base, (base + exit regex : Nat)⟩

theorem run_bind_of_ok {α β : Type} {first : Assembly α} {second : α → Assembly β}
    {arena grown : Arena} {value : α} (hfirst : first.run arena = (.ok value, grown)) :
    (first >>= second).run arena = (second value).run grown := by
  rw [run_bind, hfirst]

/-- Linking from a state in the last part of an arena changes that part only. -/
theorem run_link_bind {β : Type} {arena block : Arena} {source target : StateNumber}
    {symbol : String} {next : Unit → Assembly β} (place : Nat)
    (hsource : source = (arena.size + place : Nat)) (hplace : place < block.size) :
    (Assembly.link source target symbol >>= next).run (arena ++ block) =
      (next ()).run (arena ++ block.modify place (link symbol target)) := by
  have hbound : arena.size + place < (arena ++ block).size := by simpa using hplace
  rw [hsource, run_bind_of_ok (run_link hbound target symbol), Arena.modify_append_right rfl]

/-- Two new states at the end of an arena. -/
theorem run_addState_addState {β : Type} (arena : Arena)
    (next : StateNumber → StateNumber → Assembly β) :
    (do
      let start ← addState
      let finish ← addState
      next start finish).run arena =
      (next arena.size (arena.size + 1 : Nat)).run (arena ++ ends arena.size) := by
  rw [run_bind_of_ok (run_addState arena), run_bind_of_ok (run_addState _), Array.size_push]
  congr 1

/-- Assembling a tree always succeeds; it appends the states of its fragment and changes nothing
else. -/
theorem run_ofRegex {regex : Regex} (hknown : regex.isKnown) (arena : Arena) :
    (ofRegex regex).run arena =
      (.ok (placed arena.size regex), arena ++ states arena.size regex) := by
  induction regex generalizing arena with
  | char value =>
    rw [ofRegex, ofSymbol, run_addState_addState]
    exact run_link_bind 0 rfl (by simp)
  | concat left right ihLeft ihRight =>
    simp only [Regex.isKnown, Bool.and_eq_true] at hknown
    have hleft := exit_lt_size hknown.1
    rw [ofRegex, run_bind_of_ok (ihLeft hknown.1 arena), run_bind_of_ok (ihRight hknown.2 _),
      Array.append_assoc, concat]
    refine (run_link_bind (exit left) rfl ?_).trans ?_
    · rw [Array.size_append, size_states]
      omega
    · rw [Arena.modify_append_left (by simpa using hleft)]
      simp [placed, states, exit, Nat.add_assoc]
      rfl
  | alternation left right ihLeft ihRight =>
    simp only [Regex.isKnown, Bool.and_eq_true] at hknown
    have hleft := exit_lt_size hknown.1
    have hright := exit_lt_size hknown.2
    rw [ofRegex, run_addState_addState, run_bind_of_ok (ihLeft hknown.1 _),
      run_bind_of_ok (ihRight hknown.2 _)]
    simp only [Array.size_append, size_ends, size_states, Array.append_assoc]
    refine (run_link_bind 0 rfl ?_).trans ?_
    · rw [Array.size_append, size_ends]
      omega
    refine (run_link_bind 0 rfl ?_).trans ?_
    · rw [Array.size_modify, Array.size_append, size_ends]
      omega
    refine (run_link_bind (2 + exit left) ?_ ?_).trans ?_
    · simp [placed, Int.add_assoc]
    · simp only [Array.size_modify, Array.size_append, size_ends, size_states]
      omega
    refine (run_link_bind (2 + (size left + exit right)) ?_ ?_).trans ?_
    · simp [placed, Int.add_assoc]
    · simp only [Array.size_modify, Array.size_append, size_ends, size_states]
      omega
    rw [Arena.modify_append_left (by simp), Arena.modify_append_left (by simp),
      Arena.modify_append_right (by simp), Arena.modify_append_right (by simp),
      Arena.modify_append_left (by simpa using hleft), Arena.modify_append_right (by simp)]
    simp [placed, states, exit, Nat.add_assoc]
    rfl
  | star inner ih =>
    have hexit : exit inner < size inner := exit_lt_size hknown
    rw [ofRegex, run_addState_addState, run_bind_of_ok (ih hknown _)]
    simp only [Array.size_append, size_ends, Array.append_assoc]
    refine (run_link_bind 0 rfl ?_).trans ?_
    · rw [Array.size_append, size_ends]
      omega
    refine (run_link_bind 0 rfl ?_).trans ?_
    · rw [Array.size_modify, Array.size_append, size_ends]
      omega
    refine (run_link_bind (2 + exit inner) ?_ ?_).trans ?_
    · simp [placed, Int.add_assoc]
    · simp only [Array.size_modify, Array.size_append, size_ends, size_states]
      omega
    refine (run_link_bind (2 + exit inner) ?_ ?_).trans ?_
    · simp [placed, Int.add_assoc]
    · simp only [Array.size_modify, Array.size_append, size_ends, size_states]
      omega
    rw [Arena.modify_append_left (by simp), Arena.modify_append_left (by simp),
      Arena.modify_append_right (by simp), Arena.modify_append_right (by simp)]
    simp [placed, states, exit]
    rfl
  | unknown kind mark => simp [Regex.isKnown] at hknown

end Fragment

namespace Nfa

/-- The automaton of a tree consists of the states of its fragment, and the one at which the
fragment is left accepts. -/
theorem ofRegex_eq {regex : Regex} (hknown : regex.isKnown) :
    Nfa.ofRegex regex =
      .ok ⟨(Fragment.states 0 regex).modify (Fragment.exit regex) State.accept, 0,
        (Fragment.exit regex : Nat)⟩ := by
  have hrun : (Fragment.ofRegex regex).run #[] =
      (.ok ⟨0, (Fragment.exit regex : Nat)⟩, Fragment.states 0 regex) := by
    simpa [Fragment.placed] using Fragment.run_ofRegex hknown #[]
  have hplace : Fragment.exit regex < (Fragment.states 0 regex).size := by
    simpa using Fragment.exit_lt_size hknown
  rw [Nfa.ofRegex, assemble, Fragment.run_bind_of_ok hrun,
    Fragment.run_bind_of_ok (Assembly.run_change hplace _)]
  rfl

end Nfa
end RegexAutomata
