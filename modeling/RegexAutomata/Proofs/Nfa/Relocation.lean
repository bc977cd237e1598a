import RegexAutomata.Json.Report
import RegexAutomata.Proofs.Nfa.Layout

/-!
# Assembling behind other states

A tree may be assembled in an arena that already has states.  These stay as they are, and behind
them come the states of an empty arena, with every number raised by how many there were.  This holds
as well if the tree has an unknown node, for the states that are added before it is met.
-/

namespace RegexAutomata

/-- A map that keeps the order takes the set with one more member to the image with one more. -/
theorem Ascending.map_insert {change : Int → Int}
    (hmono : ∀ left right, change left < change right ↔ left < right)
    (hinjective : ∀ left right, change left = change right → left = right) (member : Int)
    (set : List Int) :
    (insert member set).map change = insert (change member) (set.map change) := by
  induction set with
  | nil => rfl
  | cons head rest ih =>
    rw [List.map_cons, insert, insert]
    split
    · next hless => rw [if_pos ((hmono member head).2 hless), List.map_cons, List.map_cons]
    · next hnotless =>
      rw [if_neg (mt (hmono member head).1 hnotless)]
      split
      · next hequal => rw [if_pos (congrArg change hequal), List.map_cons]
      · next hdifferent =>
        rw [if_neg (mt (hinjective member head) hdifferent), List.map_cons, ih]

/-- A change of one value and a map of all values can trade places if they do so for that value. -/
theorem Table.map_alter {κ ν μ : Type} [DecidableEq κ] {image : ν → μ} {change : Option ν → ν}
    {other : Option μ → μ} (hchange : ∀ known, image (change known) = other (known.map image))
    (key : κ) (table : Table κ ν) :
    (alter key change table).map (fun entry => (entry.1, image entry.2)) =
      alter key other (table.map fun entry => (entry.1, image entry.2)) := by
  induction table with
  | nil => exact congrArg (fun value => [(key, value)]) (hchange none)
  | cons entry rest ih =>
    rw [List.map_cons, alter, alter]
    split
    · rw [List.map_cons, hchange, Option.map_some]
    · rw [List.map_cons, ih]

namespace Nfa.State

/-- The state with its number and all targets raised. -/
def raised (offset : Nat) (state : State) : State where
  id := state.id + offset
  accepting := state.accepting
  edges := state.edges.map fun entry => (entry.1, entry.2.map (· + (offset : Int)))
  nodup_symbols := by
    rw [List.map_map]
    exact state.nodup_symbols
  ascending_targets := by
    intro entry hentry
    obtain ⟨old, hold, rfl⟩ := List.mem_map.1 hentry
    refine List.pairwise_map.2 ((state.ascending_targets old hold).imp fun hless => ?_)
    exact Int.add_lt_add_right hless offset

/-- It makes no difference whether an edge is added before or after numbers are raised. -/
theorem raised_link (offset : Nat) (symbol : String) (target : StateNumber) (state : State) :
    (state.link symbol target).raised offset =
      (state.raised offset).link symbol (target + offset) := by
  have hmono : ∀ left right : Int, left + offset < right + offset ↔ left < right := fun _ _ =>
    Int.add_lt_add_iff_right offset
  have hinjective : ∀ left right : Int, left + offset = right + offset → left = right :=
    fun _ _ hequal => by omega
  have hset : ∀ known : Option (List Int),
      (Ascending.insert target (known.getD [])).map (· + (offset : Int)) =
        Ascending.insert (target + offset)
          ((known.map (List.map (· + (offset : Int)))).getD []) := by
    rintro (_ | known)
    · rfl
    · exact Ascending.map_insert hmono hinjective target known
  simpa only [raised, link, State.mk.injEq, true_and] using
    Table.map_alter hset symbol state.edges

end Nfa.State

namespace Arena

def raised (offset : Nat) (block : Arena) : Arena :=
  block.map (Nfa.State.raised offset)

variable {offset : Nat}

theorem raised_append (before block : Arena) :
    raised offset (before ++ block) = raised offset before ++ raised offset block :=
  Array.map_append

theorem raised_modify_link (block : Arena) (place : Nat) (symbol : String) (target : StateNumber) :
    raised offset (block.modify place (Nfa.State.link symbol target)) =
      (raised offset block).modify place (Nfa.State.link symbol (target + offset)) := by
  apply Array.ext_getElem?
  intro index
  rw [raised, raised, Array.getElem?_map, Array.getElem?_modify, Array.getElem?_modify,
    Array.getElem?_map]
  split
  · rw [Option.map_map, Option.map_map]
    exact congrArg (Option.map · _) (funext (Nfa.State.raised_link offset symbol target))
  · rfl

/-- What is reported of states that take the numbers from `first` on. -/
def reportsFrom (first : Nat) (block : Arena) : List Json :=
  block.toList.mapIdx fun place state => Nfa.State.toJson { state with id := first + place }

theorem reportsFrom_of_numbered {first : Nat} {block : Arena} (hblock : NumberedFrom first block) :
    reportsFrom first block = block.toList.map Nfa.State.toJson := by
  apply List.ext_getElem?
  intro place
  rw [reportsFrom, List.getElem?_mapIdx, List.getElem?_map, Array.getElem?_toList]
  cases hstate : block[place]? with
  | none => rfl
  | some state =>
    rw [Option.map_some, Option.map_some, ← hblock place state hstate]

end Arena

namespace Fragment

open Assembly Arena

def raised (offset : Nat) (fragment : Fragment) : Fragment :=
  ⟨fragment.start + offset, fragment.finish + offset⟩

theorem raised_ends (offset base : Nat) :
    Arena.raised offset (ends base) = ends (base + offset) := by
  simp [Arena.raised, ends, Nfa.State.raised, Nat.add_right_comm]

theorem raised_placed (offset base : Nat) (regex : Regex) :
    raised offset (placed base regex) = placed (base + offset) regex := by
  simp only [raised, placed, Int.natCast_add, Int.add_right_comm]

/-- Where a fragment begins makes no difference but to the numbers. -/
theorem states_add (base offset : Nat) (regex : Regex) :
    states (base + offset) regex = Arena.raised offset (states base regex) := by
  induction regex generalizing base with
  | char value =>
    rw [states, states, raised_modify_link, raised_ends, Nat.add_right_comm base offset,
      Int.natCast_add (base + 1)]
  | concat left right ihLeft ihRight =>
    rw [states, states, raised_append, raised_modify_link, ihLeft,
      Nat.add_right_comm base offset, ihRight, Int.natCast_add (base + size left)]
  | alternation left right ihLeft ihRight =>
    simp only [states, raised_append, raised_modify_link, raised_ends,
      Nat.add_right_comm base offset, Nat.add_right_comm (base + 2) offset, ihLeft, ihRight,
      Int.natCast_add _ offset]
  | star inner ih =>
    simp only [states, raised_append, raised_modify_link, raised_ends,
      Nat.add_right_comm base offset, ih, Int.natCast_add _ offset]
  | unknown kind mark => simp [states, Arena.raised]

/-- The steps meet an unknown node and fail.  They leave behind the states that they have added,
which depend on where they begin only by the numbers. -/
structure Aborts {α : Type} (steps : Assembly α) (kind : String) (debris : Nat → Arena) :
    Prop where
  run_eq : ∀ arena, steps.run arena =
    (.error (.unknownNode kind), arena ++ debris arena.size)
  debris_add : ∀ base offset, debris (base + offset) = Arena.raised offset (debris base)
  numbered : ∀ base, NumberedFrom base (debris base)

namespace Aborts

variable {α β : Type} {kind : String} {debris : Nat → Arena}

theorem bind {steps : Assembly α} (haborts : Aborts steps kind debris) (next : α → Assembly β) :
    Aborts (steps >>= next) kind debris where
  run_eq arena := by rw [run_bind, haborts.run_eq]
  debris_add := haborts.debris_add
  numbered := haborts.numbered

/-- What is left behind comes after the states of the tree that was assembled first. -/
theorem after_ofRegex {regex : Regex} (hknown : regex.isKnown) {next : Fragment → Assembly α}
    (haborts : ∀ fragment, Aborts (next fragment) kind debris) :
    Aborts (ofRegex regex >>= next) kind
      fun base => states base regex ++ debris (base + size regex) where
  run_eq arena := by
    rw [run_bind_of_ok (run_ofRegex hknown arena), (haborts _).run_eq, Array.size_append,
      size_states, Array.append_assoc]
  debris_add base offset := by
    rw [raised_append, ← states_add, ← (haborts (placed base regex)).debris_add,
      Nat.add_right_comm]
  numbered base := by
    refine (numberedFrom_states base regex).append ?_
    rw [size_states]
    exact (haborts (placed base regex)).numbered _

theorem after_ends {next : StateNumber → StateNumber → Assembly α}
    (haborts : ∀ start finish, Aborts (next start finish) kind debris) :
    Aborts (do
        let start ← addState
        let finish ← addState
        next start finish) kind
      fun base => ends base ++ debris (base + 2) where
  run_eq arena := by
    rw [run_addState_addState, (haborts _ _).run_eq, Array.size_append, size_ends,
      Array.append_assoc]
  debris_add base offset := by
    rw [raised_append, raised_ends, ← (haborts base base).debris_add, Nat.add_right_comm]
  numbered base := (numberedFrom_ends base).append ((haborts base base).numbered _)

end Aborts

/-- Of several unknown nodes it is the leftmost one that is met, since a left part is assembled
before the right one. -/
theorem exists_debris {regex : Regex} {kind : String} {others : List String}
    (hkinds : regex.unknownKinds = kind :: others) :
    ∃ debris, Aborts (ofRegex regex) kind debris := by
  induction regex generalizing others with
  | char value => cases hkinds
  | concat left right ihLeft ihRight =>
    obtain ⟨hleft, hright⟩ | ⟨_, hleft, -⟩ := List.append_eq_cons_iff.1 hkinds
    · obtain ⟨debris, haborts⟩ := ihRight hright
      exact ⟨_, .after_ofRegex (Regex.isKnown_iff.2 hleft) fun first => haborts.bind _⟩
    · obtain ⟨debris, haborts⟩ := ihLeft hleft
      exact ⟨debris, haborts.bind _⟩
  | alternation left right ihLeft ihRight =>
    obtain ⟨hleft, hright⟩ | ⟨_, hleft, -⟩ := List.append_eq_cons_iff.1 hkinds
    · obtain ⟨debris, haborts⟩ := ihRight hright
      exact ⟨_, .after_ends fun start finish =>
        .after_ofRegex (Regex.isKnown_iff.2 hleft) fun first => haborts.bind _⟩
    · obtain ⟨debris, haborts⟩ := ihLeft hleft
      exact ⟨_, .after_ends fun start finish => haborts.bind _⟩
  | star inner ih =>
    obtain ⟨debris, haborts⟩ := ih hkinds
    exact ⟨_, .after_ends fun start finish => haborts.bind _⟩
  | unknown found mark =>
    obtain ⟨rfl, -⟩ := List.cons.inj hkinds
    refine ⟨fun _ => #[], fun arena => ?_, fun base offset => ?_, fun base => ?_⟩
    · rw [Array.append_empty]
      rfl
    · rw [Arena.raised, Array.map_empty]
    · exact numberedFrom_empty

theorem exists_aborts {regex : Regex} (hunknown : ¬ regex.isKnown) :
    ∃ kind debris, Aborts (ofRegex regex) kind debris := by
  obtain ⟨kind, others, hkinds⟩ := List.exists_cons_of_ne_nil (mt Regex.isKnown_iff.2 hunknown)
  exact ⟨kind, exists_debris hkinds⟩

/-- Assembling a tree in any arena comes to what it comes to in an empty one, with all numbers
raised by the states that are there before, which stay as they are.  The new states carry their
places as numbers, and are reported under them.  It succeeds if all nodes are known, and fails
otherwise. -/
theorem run_ofRegex_raised (arena : Arena) (regex : Regex) :
    ∃ result block, (ofRegex regex).run #[] = (result, block) ∧
      (ofRegex regex).run arena =
        (result.map (raised arena.size), arena ++ Arena.raised arena.size block) ∧
      NumberedFrom 0 block ∧ NumberedFrom arena.size (Arena.raised arena.size block) ∧
      toJson (arena ++ Arena.raised arena.size block) =
        .array (arena.toList.map Nfa.State.toJson ++
          reportsFrom arena.size (Arena.raised arena.size block)) ∧
      ((∃ fragment, result = .ok fragment) ↔ regex.isKnown) ∧
      ((∃ kind, result = .error (.unknownNode kind)) ↔ ¬ regex.isKnown) := by
  have hreports : ∀ block : Arena, NumberedFrom arena.size block →
      toJson (arena ++ block) =
        .array (arena.toList.map Nfa.State.toJson ++ reportsFrom arena.size block) := by
    intro block hblock
    rw [reportsFrom_of_numbered hblock, toJson, Array.toList_append, List.map_append]
  by_cases hknown : regex.isKnown
  · have hraised : Arena.raised arena.size (states 0 regex) = states arena.size regex := by
      rw [← states_add, Nat.zero_add]
    refine ⟨.ok (placed 0 regex), states 0 regex, ?_, ?_, numberedFrom_states 0 regex, ?_⟩
    · simpa using run_ofRegex hknown #[]
    · rw [run_ofRegex hknown, hraised, Except.map, raised_placed, Nat.zero_add]
    · rw [hraised]
      refine ⟨numberedFrom_states _ regex, hreports _ (numberedFrom_states _ regex), ?_, ?_⟩
      · exact iff_of_true ⟨_, rfl⟩ hknown
      · exact iff_of_false (fun ⟨_, hfails⟩ => nomatch hfails) (not_not_intro hknown)
  · obtain ⟨kind, debris, haborts⟩ := exists_aborts hknown
    have hraised : Arena.raised arena.size (debris 0) = debris arena.size := by
      rw [← haborts.debris_add, Nat.zero_add]
    refine ⟨.error (.unknownNode kind), debris 0, ?_, ?_, haborts.numbered 0, ?_⟩
    · simpa using haborts.run_eq #[]
    · rw [haborts.run_eq, hraised, Except.map]
    · rw [hraised]
      refine ⟨haborts.numbered _, hreports _ (haborts.numbered _), ?_, ?_⟩
      · exact iff_of_false (fun ⟨_, hworks⟩ => nomatch hworks) hknown
      · exact iff_of_true ⟨_, rfl⟩ hknown

/-- The state that is there keeps its stray edge, and the ends of the left part stay behind. -/
example : (ofRegex (.concat (.char "a") (.unknown "EMPTY" 0))).run #[.link "b" 7 { id := 0 }] =
    (.error (.unknownNode "EMPTY"),
      #[.link "b" 7 { id := 0 }, .link "a" 2 { id := 1 }, { id := 2 }]) := by
  rfl

end Fragment
end RegexAutomata
