import RegexAutomata.Dfa.Direct
import RegexAutomata.Position.AnnotatedRegex
import RegexAutomata.Proofs.Collection.Ascending
import RegexAutomata.Proofs.Regex.Blame

/-!
# Both passes through a tree count alike

The first pass leaves a blank row for every character, in the order of the characters.  When the
second pass comes to a part of the tree, the rows of this part are still blank and stand between
those of what is on the left, which are filled in, and those of what is on the right.  It counts
like the first pass, so it fills in these rows and no others.  In the end every position has the
symbol and the followers that the numbered tree gives it.
-/

namespace RegexAutomata

namespace MarkedRegex

variable {before after : List Position} {table : Table Position (List Position)}
  {position : Position}

/-- Only the rows of the positions in question change. -/
theorem linked_eq_self (habsent : ∀ position ∈ before, position ∉ table.map Prod.fst) :
    linked before after table = table := by
  have hentry : ∀ entry ∈ table,
      (entry.1, if entry.1 ∈ before then Ascending.union after entry.2 else entry.2) = entry := by
    intro entry hentry
    rw [if_neg fun hbefore => habsent _ hbefore (List.mem_map_of_mem hentry)]
  rw [linked, List.map_congr_left hentry, List.map_id']

theorem linked_cons (hnew : position ∉ before) :
    linked (position :: before) after table =
      linked before after (linked [position] after table) := by
  rw [linked, linked, linked, List.map_map]
  apply List.map_congr_left
  intro entry _
  by_cases hown : entry.1 = position
  · simp [hown, hnew]
  · simp [hown]

end MarkedRegex

namespace Ledger

open MarkedRegex

variable {before after : List Position} {table rows left right : Table Position (List Position)}
  {position : Position} {ledger : Ledger}

section Link

/-- For a position with a row the extension succeeds, and it is a link from this position alone. -/
theorem extend_eq (hposition : position ∈ table.map Prod.fst)
    (hnodup : (table.map Prod.fst).Nodup) (after : List Position) :
    extend after table position = .ok (linked [position] after table) := by
  obtain ⟨known, hknown⟩ := Option.isSome_iff_exists.1 (Table.isSome_value?_iff.2 hposition)
  rw [extend, hknown]
  dsimp only
  rw [Table.put_of_mem hposition hnodup, linked]
  refine congrArg Except.ok (List.map_congr_left fun entry hentry => ?_)
  by_cases hown : entry.1 = position
  · have hfound : Table.value? position table = some entry.2 :=
      (Table.value?_eq_some_iff hnodup).2 (hown ▸ hentry)
    have hsame : known = entry.2 := Option.some.inj (hknown.symm.trans hfound)
    simp [hown, hsame]
  · simp [hown]

/-- Extending position by position comes to linking the whole set. -/
theorem foldlM_extend_eq (hknown : before ⊆ table.map Prod.fst) (hbefore : before.Nodup)
    (hnodup : (table.map Prod.fst).Nodup) (after : List Position) :
    before.foldlM (extend after) table = .ok (linked before after table) := by
  induction before generalizing table with
  | nil =>
    rw [linked_eq_self fun _ hnever => absurd hnever List.not_mem_nil]
    rfl
  | cons position before ih =>
    rw [List.nodup_cons] at hbefore
    rw [List.cons_subset] at hknown
    have hknownRest : before ⊆ (linked [position] after table).map Prod.fst := by
      rw [keys_linked]
      exact hknown.2
    have hnodupRest : ((linked [position] after table).map Prod.fst).Nodup := by
      rw [keys_linked]
      exact hnodup
    rw [List.foldlM_cons, extend_eq hknown.1 hnodup, linked_cons hbefore.1]
    exact ih hknownRest hbefore.2 hnodupRest

/-- Linking positions of one part of the tree changes the rows of this part only. -/
theorem link_eq (hfollow : ledger.follow = left ++ (rows ++ right))
    (hnodup : (ledger.follow.map Prod.fst).Nodup) (hbefore : before.Nodup)
    (hrows : before ⊆ rows.map Prod.fst) (after : List Position) :
    ledger.link before after =
      .ok { ledger with follow := left ++ (linked before after rows ++ right) } := by
  have hkeys : before ⊆ ledger.follow.map Prod.fst := by
    rw [hfollow, List.map_append, List.map_append]
    exact List.subset_append_of_subset_right _ (List.subset_append_of_subset_left _ hrows)
  have hfold := foldlM_extend_eq hkeys hbefore hnodup after
  rw [hfollow, List.map_append, List.map_append, List.nodup_append', List.nodup_append'] at hnodup
  obtain ⟨-, ⟨-, -, hright⟩, hleft⟩ := hnodup
  have hparts : linked before after (left ++ (rows ++ right)) =
      left ++ (linked before after rows ++ right) := by
    have houtLeft : linked before after left = left :=
      linked_eq_self fun position hposition hin =>
        hleft hin (List.mem_append_left _ (hrows hposition))
    have houtRight : linked before after right = right :=
      linked_eq_self fun position hposition hin => hright (hrows hposition) hin
    rw [linked, List.map_append, List.map_append, ← linked, ← linked, ← linked, houtLeft, houtRight]
  rw [link, hfold, hfollow, hparts]
  rfl

end Link

section Blank

/-- Positions that are entered and have no followers as yet. -/
def blank (counted : Position) (count : Nat) : Table Position (List Position) :=
  (consecutive counted count).map fun position => (position, [])

theorem keys_blank (counted : Position) (count : Nat) :
    (blank counted count).map Prod.fst = consecutive counted count := by
  rw [blank, List.map_map]
  exact List.map_id _

theorem blank_add (counted : Position) (first second : Nat) :
    blank counted (first + second) = blank counted first ++ blank (counted + first) second := by
  rw [blank, consecutive_add, List.map_append, ← blank, ← blank]

/-- The count has passed all positions that are entered. -/
structure UpToDate (ledger : Ledger) : Prop where
  symbols_le : ∀ position ∈ ledger.symbols.map Prod.fst, position ≤ ledger.counted
  follow_le : ∀ position ∈ ledger.follow.map Prod.fst, position ≤ ledger.counted

def entering (ledger : Ledger) (values : List String) : Ledger where
  counted := ledger.counted + values.length
  symbols := ledger.symbols ++ (consecutive ledger.counted values.length).zip values
  follow := ledger.follow ++ blank ledger.counted values.length

theorem entering_append (ledger : Ledger) (first second : List String) :
    ledger.entering (first ++ second) = (ledger.entering first).entering second := by
  have hlength := length_consecutive ledger.counted first.length
  simp only [entering, List.length_append, consecutive_add, blank_add, List.zip_append hlength,
    List.append_assoc, Int.natCast_add, Int.add_assoc]

theorem enter_eq (hledger : ledger.UpToDate) (value : String) :
    ledger.enter value = ledger.entering [value] := by
  have hnew : ¬ ledger.counted + 1 ≤ ledger.counted := Int.not_le.2 (Int.lt_succ _)
  have hsymbols : ledger.counted + 1 ∉ ledger.symbols.map Prod.fst :=
    fun hin => hnew (hledger.symbols_le _ hin)
  have hfollow : ledger.counted + 1 ∉ ledger.follow.map Prod.fst :=
    fun hin => hnew (hledger.follow_le _ hin)
  simp [enter, entering, Table.put_of_not_mem hsymbols, Table.put_of_not_mem hfollow, blank,
    consecutive]

theorem UpToDate.entering (hledger : ledger.UpToDate) (values : List String) :
    (ledger.entering values).UpToDate := by
  have hwithin : ∀ {position : Position},
      position ≤ ledger.counted ∨ position ∈ consecutive ledger.counted values.length →
        position ≤ (ledger.entering values).counted := by
    rintro position (hold | hnew)
    · exact Int.le_trans hold (Int.le_add_of_nonneg_right (Int.natCast_nonneg _))
    · exact (mem_consecutive.1 hnew).2
  constructor
  · intro position hposition
    rw [Ledger.entering, List.map_append, List.mem_append, List.map_fst_zip] at hposition
    · exact hwithin (hposition.imp_left (hledger.symbols_le position))
    · rw [length_consecutive]
  · intro position hposition
    rw [Ledger.entering, List.map_append, List.mem_append, keys_blank] at hposition
    exact hwithin (hposition.imp_left (hledger.follow_le position))

end Blank

end Ledger

namespace Regex

/-- The first pass enters all characters, from left to right. -/
theorem number_eq (regex : Regex) {ledger : Ledger} (hledger : ledger.UpToDate) :
    regex.number ledger = ledger.entering regex.values := by
  induction regex generalizing ledger with
  | char value => exact Ledger.enter_eq hledger value
  | concat left right ihLeft ihRight =>
    rw [number, ihLeft hledger, ihRight (hledger.entering _), values, Ledger.entering_append]
  | alternation left right ihLeft ihRight =>
    rw [number, ihLeft hledger, ihRight (hledger.entering _), values, Ledger.entering_append]
  | star inner ih => exact ih hledger
  | unknown kind mark => simp [number, values, Ledger.entering, Ledger.blank, consecutive]

/-- Only a tree of known nodes is numbered, and its characters get the positions that come next. -/
theorem markFrom_eq_ok {regex : Regex} {counted final : Position} {marked : MarkedRegex}
    (hmarked : markFrom counted regex = .ok (marked, final)) :
    marked.unmarked = regex ∧ marked.positions = consecutive counted regex.values.length ∧
      final = counted + regex.values.length := by
  have hblames := markFrom_blames regex counted
  generalize hkinds : regex.unknownKinds = kinds at hblames
  rw [hmarked] at hblames
  cases hblames
  obtain ⟨found, hfound, hregex, hpositions⟩ := markFrom_eq (isKnown_iff.2 hkinds) counted
  obtain ⟨rfl, rfl⟩ := Prod.mk.inj (Except.ok.inj (hmarked.symm.trans hfound))
  have hlength : regex.values.length = marked.leaves.length := by
    rw [← hregex, MarkedRegex.values_unmarked, List.length_map]
  rw [hlength]
  exact ⟨hregex, hpositions, rfl⟩

end Regex

namespace MarkedRegex

def notes (marked : MarkedRegex) : NodeNotes :=
  ⟨marked.nullable, marked.first, marked.last⟩

def withNotes : MarkedRegex → AnnotatedRegex
  | leaf value position => .leaf value position (leaf value position).notes
  | concat left right => .concat left.withNotes right.withNotes (concat left right).notes
  | alternation left right =>
    .alternation left.withNotes right.withNotes (alternation left right).notes
  | star inner => .star inner.withNotes (star inner).notes

@[simp]
theorem notes_withNotes (marked : MarkedRegex) : marked.withNotes.notes = marked.notes := by
  cases marked <;> rfl

end MarkedRegex

namespace Ledger

open MarkedRegex

variable {left right : Table Position (List Position)} {ledger : Ledger} {count more : Nat}
  {marked first second : MarkedRegex}

/-- The rows of the next characters are blank.  They stand between the rows of what is on the left
and of what is on the right, and no position has two rows. -/
structure Awaits (ledger : Ledger) (left : Table Position (List Position)) (count : Nat)
    (right : Table Position (List Position)) : Prop where
  follow_eq : ledger.follow = left ++ (blank ledger.counted count ++ right)
  nodup_keys : (ledger.follow.map Prod.fst).Nodup

/-- The ledger when the rows in the middle are filled in. -/
def filled (ledger : Ledger) (left : Table Position (List Position)) (marked : MarkedRegex)
    (right : Table Position (List Position)) : Ledger where
  counted := ledger.counted + marked.leaves.length
  symbols := ledger.symbols
  follow := left ++ (marked.follow ++ right)

/-- Before the left part is gone through, the rows of the right one stand on its right. -/
theorem Awaits.left_part (hawaits : ledger.Awaits left (count + more) right) :
    ledger.Awaits left count (blank (ledger.counted + count) more ++ right) := by
  refine ⟨?_, hawaits.nodup_keys⟩
  rw [hawaits.follow_eq, blank_add, List.append_assoc]

theorem counted_filled (hpositions : marked.positions = consecutive ledger.counted count) :
    (ledger.filled left marked right).counted = ledger.counted + count := by
  rw [filled, ← length_consecutive ledger.counted count, ← hpositions, positions, List.length_map]

theorem Awaits.nodup_filled (hawaits : ledger.Awaits left count right)
    (hpositions : marked.positions = consecutive ledger.counted count) :
    ((ledger.filled left marked right).follow.map Prod.fst).Nodup := by
  have hkeys : (ledger.filled left marked right).follow.map Prod.fst =
      ledger.follow.map Prod.fst := by
    simp only [filled, hawaits.follow_eq, List.map_append, keys_follow, hpositions, keys_blank]
  rw [hkeys]
  exact hawaits.nodup_keys

/-- After the left part is gone through, its rows stand on the left of those of the right one. -/
theorem Awaits.right_part (hawaits : ledger.Awaits left (count + more) right)
    (hpositions : first.positions = consecutive ledger.counted count) :
    (ledger.filled left first (blank (ledger.counted + count) more ++ right)).Awaits
      (left ++ first.follow) more right := by
  refine ⟨?_, hawaits.left_part.nodup_filled hpositions⟩
  rw [counted_filled hpositions, filled, List.append_assoc]

/-- Without links between them, two parts are filled in like an alternation of them. -/
theorem filled_filled (ledger : Ledger) (first second : MarkedRegex)
    (left middle right : Table Position (List Position)) :
    (ledger.filled left first middle).filled (left ++ first.follow) second right =
      ledger.filled left (.alternation first second) right := by
  simp only [filled, leaves, MarkedRegex.follow, List.length_append, List.append_assoc,
    Int.natCast_add, Int.add_assoc]

theorem link_concat (hnodup :
      ((ledger.filled left (.alternation first second) right).follow.map Prod.fst).Nodup) :
    (ledger.filled left (.alternation first second) right).link first.last second.first =
      .ok (ledger.filled left (.concat first second) right) := by
  have hlast : first.last ⊆ (first.follow ++ second.follow).map Prod.fst := by
    rw [List.map_append, keys_follow]
    exact List.subset_append_of_subset_left _ first.last_subset
  exact link_eq rfl hnodup (Ascending.nodup_of_pairwise first.ascending_last) hlast second.first

theorem link_star (hnodup : ((ledger.filled left marked right).follow.map Prod.fst).Nodup) :
    (ledger.filled left marked right).link marked.last marked.first =
      .ok (ledger.filled left (.star marked) right) := by
  have hlast : marked.last ⊆ marked.follow.map Prod.fst := by
    rw [keys_follow]
    exact marked.last_subset
  exact link_eq rfl hnodup (Ascending.nodup_of_pairwise marked.ascending_last) hlast marked.first

end Ledger

namespace Regex

open MarkedRegex

/-- Where its rows are awaited, the second pass numbers the tree and fills them in. -/
def Fills (regex : Regex) : Prop :=
  ∀ (ledger : Ledger) (left right : Table Position (List Position)),
    ledger.Awaits left regex.values.length right →
      regex.annotateFrom ledger = (regex.markFrom ledger.counted).map fun result =>
        (result.1.withNotes, ledger.filled left result.1 right)

section Parts

variable {first second : Regex} {ledger : Ledger} {left right : Table Position (List Position)}
  {combine : MarkedRegex → MarkedRegex → MarkedRegex}

/-- Two parts are gone through one after the other.  What is left to do then is done knowing what
both have filled in. -/
theorem Fills.parts (hfirst : first.Fills) (hsecond : second.Fills)
    (hawaits : ledger.Awaits left (first.values.length + second.values.length) right)
    (finish : AnnotatedRegex → AnnotatedRegex → Ledger → Except Failure (AnnotatedRegex × Ledger))
    (hfinish : ∀ before after,
      ((ledger.filled left (.alternation before after) right).follow.map Prod.fst).Nodup →
        finish before.withNotes after.withNotes
            (ledger.filled left (.alternation before after) right) =
          .ok ((combine before after).withNotes, ledger.filled left (combine before after) right)) :
    (do
      let before ← first.annotateFrom ledger
      let after ← second.annotateFrom before.2
      finish before.1 after.1 after.2) =
    (do
      let before ← first.markFrom ledger.counted
      let after ← second.markFrom before.2
      return (combine before.1 after.1, after.2) : Except Failure (MarkedRegex × Position)).map
        fun result => (result.1.withNotes, ledger.filled left result.1 right) := by
  rw [hfirst _ _ _ hawaits.left_part]
  cases hbefore : first.markFrom ledger.counted with
  | error failure => rfl
  | ok result =>
    obtain ⟨before, counted⟩ := result
    obtain ⟨-, hpositions, rfl⟩ := markFrom_eq_ok hbefore
    have hrest := hawaits.right_part hpositions
    have hpass := hsecond _ _ _ hrest
    rw [Ledger.counted_filled hpositions] at hpass
    simp only [Except.map, bind, Except.bind, hpass]
    cases hafter : second.markFrom (ledger.counted + first.values.length) with
    | error failure => rfl
    | ok result =>
      obtain ⟨after, counted⟩ := result
      obtain ⟨-, hlater, rfl⟩ := markFrom_eq_ok hafter
      rw [← Ledger.counted_filled hpositions] at hlater
      have hnodup := hrest.nodup_filled hlater
      rw [Ledger.filled_filled] at hnodup
      simp only [Ledger.filled_filled, hfinish before after hnodup]
      rfl

end Parts

/-- The second pass numbers any part of a tree and fills in the rows that await it, whatever has
been done with those on its left. -/
theorem annotateFrom_eq (regex : Regex) : regex.Fills := by
  induction regex with
  | char value =>
    intro ledger left right hawaits
    have hfollow : ledger.follow = left ++ ((MarkedRegex.leaf value (ledger.counted + 1)).follow
        ++ right) := by
      rw [hawaits.follow_eq]
      simp [Ledger.blank, consecutive, values, follow]
    rw [annotateFrom, markFrom, Except.map, Ledger.filled, ← hfollow]
    rfl
  | concat first second ihFirst ihSecond =>
    intro ledger left right hawaits
    rw [values, List.length_append] at hawaits
    refine ihFirst.parts ihSecond hawaits (fun before after passed => do
      return (.concat before after (.concat before.notes after.notes),
        ← passed.link before.notes.last after.notes.first)) fun before after hnodup => ?_
    -- both parts are filled in, and only the links between them are missing
    rw [notes_withNotes, notes_withNotes]
    have hlink := Ledger.link_concat hnodup
    simp only [notes, hlink]
    rfl
  | alternation first second ihFirst ihSecond =>
    intro ledger left right hawaits
    rw [values, List.length_append] at hawaits
    refine ihFirst.parts ihSecond hawaits (fun before after passed =>
      return (.alternation before after (.alternation before.notes after.notes), passed))
      fun before after _ => ?_
    rw [notes_withNotes, notes_withNotes]
    rfl
  | star inner ih =>
    intro ledger left right hawaits
    rw [annotateFrom, markFrom, ih _ _ _ hawaits]
    cases hinner : inner.markFrom ledger.counted with
    | error failure => rfl
    | ok result =>
      obtain ⟨marked, counted⟩ := result
      obtain ⟨-, hpositions, rfl⟩ := markFrom_eq_ok hinner
      have hlink := Ledger.link_star (hawaits.nodup_filled hpositions)
      simp only [Except.map, bind, Except.bind, notes_withNotes]
      simp only [notes, hlink]
      rfl
  | unknown kind mark => exact fun _ _ _ _ => rfl

end Regex

namespace Annotated

/-- What annotating makes of a numbered tree. -/
def ofMarked (marked : MarkedRegex) : Annotated :=
  ⟨marked.withNotes, marked.leaves, marked.follow⟩

theorem table_ofMarked (marked : MarkedRegex) :
    (ofMarked marked).table = FollowTable.ofMarked marked := by
  rw [table, ofMarked, MarkedRegex.notes_withNotes]
  rfl

end Annotated

namespace Regex

/-- Annotating a tree numbers it, writes the notes on the nodes and enters the symbols and the
followers of the numbered tree.  Where numbering stops, annotating stops in the same words. -/
theorem annotate_eq (regex : Regex) : regex.annotate = regex.marked.map Annotated.ofMarked := by
  have hempty : ({} : Ledger).UpToDate :=
    ⟨fun _ hnever => absurd hnever List.not_mem_nil, fun _ hnever => absurd hnever List.not_mem_nil⟩
  rw [annotate, marked, number_eq _ hempty]
  generalize concat regex (char endMarker) = ended
  have hawaits : Ledger.Awaits { ({} : Ledger).entering ended.values with counted := 0 } []
      ended.values.length [] := by
    refine ⟨(List.append_nil _).symm, ?_⟩
    have hkeys := Ledger.keys_blank 0 ended.values.length
    exact hkeys.symm ▸ nodup_consecutive 0 _
  have hpass := ended.annotateFrom_eq _ _ _ hawaits
  simp only [hpass]
  cases hmarked : ended.markFrom 0 with
  | error failure => rfl
  | ok result =>
    obtain ⟨marked, counted⟩ := result
    obtain ⟨rfl, hpositions, -⟩ := markFrom_eq_ok hmarked
    have hsymbols : (({} : Ledger).entering marked.unmarked.values).symbols = marked.leaves := by
      rw [marked.leaves_eq_zip, hpositions]
      rfl
    have hfollow : [] ++ (marked.follow ++ []) = marked.follow := List.append_nil _
    exact congrArg₂ (fun symbols follow => Except.ok (Annotated.mk marked.withNotes symbols follow))
      hsymbols hfollow

theorem annotate_of_marked {regex : Regex} {marked : MarkedRegex}
    (hmarked : regex.marked = .ok marked) :
    regex.annotate = .ok (Annotated.ofMarked marked) := by
  rw [annotate_eq, hmarked]
  rfl

/-- The direct construction makes of a tree what it makes of the table of the numbered tree. -/
theorem direct_of_marked {regex : Regex} {marked : MarkedRegex}
    (hmarked : regex.marked = .ok marked) (limit : Option Int) :
    regex.direct limit = (FollowTable.ofMarked marked).direct limit := by
  rw [direct, annotate_of_marked hmarked]
  exact congrArg (FollowTable.direct · limit) (Annotated.table_ofMarked marked)

end Regex
end RegexAutomata
