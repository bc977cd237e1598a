/-!
# Tables in order of entry

A table maps keys to values and remembers the order in which the keys came in.  A key keeps its
place when its value is replaced.
-/

namespace RegexAutomata

abbrev Table (κ ν : Type) := List (κ × ν)

namespace Table

variable {κ ν : Type} [DecidableEq κ]

def value? (key : κ) : Table κ ν → Option ν
  | [] => none
  | (other, value) :: rest => if other = key then some value else value? key rest

/-- Recomputes the value under a key in its place; a new key goes to the end. -/
def alter (key : κ) (change : Option ν → ν) : Table κ ν → Table κ ν
  | [] => [(key, change none)]
  | (other, value) :: rest =>
    if other = key then (other, change (some value)) :: rest
    else (other, value) :: alter key change rest

def put (table : Table κ ν) (key : κ) (value : ν) : Table κ ν :=
  alter key (fun _ => value) table

/-- The table that arises when entries come in one after the other. -/
def ofEntries (entries : List (κ × ν)) : Table κ ν :=
  entries.foldl (fun table entry => put table entry.1 entry.2) []

/-- Other keys keep their values. -/
theorem value?_alter (table : Table κ ν) (key other : κ) (change : Option ν → ν) :
    value? other (alter key change table) =
      if key = other then some (change (value? key table)) else value? other table := by
  induction table with
  | nil => simp [alter, value?]
  | cons entry rest ih =>
    obtain ⟨first, value⟩ := entry
    by_cases hfirst : first = key
    · subst hfirst
      by_cases hother : first = other <;> simp [alter, value?, hother]
    · by_cases hother : first = other
      · subst hother
        simp [alter, value?, hfirst, Ne.symm hfirst]
      · simp [alter, value?, hfirst, hother, ih]

/-- The keys stay in their order; a new key comes last. -/
theorem keys_alter (table : Table κ ν) (key : κ) (change : Option ν → ν) :
    (alter key change table).map Prod.fst =
      if key ∈ table.map Prod.fst then table.map Prod.fst else table.map Prod.fst ++ [key] := by
  induction table with
  | nil => simp [alter]
  | cons entry rest ih =>
    obtain ⟨first, value⟩ := entry
    by_cases hfirst : first = key
    · simp [alter, hfirst]
    · simp only [alter, if_neg hfirst, List.map_cons, ih, List.mem_cons, Ne.symm hfirst, false_or]
      split <;> rfl

/-- No key comes to stand in a table twice. -/
theorem nodup_keys_alter {table : Table κ ν} (htable : (table.map Prod.fst).Nodup) (key : κ)
    (change : Option ν → ν) : ((alter key change table).map Prod.fst).Nodup := by
  rw [keys_alter]
  split
  · exact htable
  · next hnew =>
    rw [List.nodup_append]
    refine ⟨htable, by simp, fun other hother found hfound => ?_⟩
    rw [List.mem_singleton] at hfound
    rintro rfl
    exact hnew (hfound ▸ hother)

/-- What holds of all values, and of a value that arises by the change, holds afterwards. -/
theorem forall_alter {property : ν → Prop} {table : Table κ ν} {key : κ} {change : Option ν → ν}
    (hnew : property (change none))
    (hchange : ∀ value, property value → property (change (some value)))
    (htable : ∀ entry ∈ table, property entry.2) :
    ∀ entry ∈ alter key change table, property entry.2 := by
  induction table with
  | nil => simpa [alter] using hnew
  | cons entry rest ih =>
    obtain ⟨first, value⟩ := entry
    rw [List.forall_mem_cons] at htable
    unfold alter
    split
    · exact List.forall_mem_cons.2 ⟨hchange value htable.1, htable.2⟩
    · exact List.forall_mem_cons.2 ⟨htable.1, ih htable.2⟩

/-- In a table that has each key once, what is found under a key is what is entered there. -/
theorem value?_eq_some_iff {table : Table κ ν} (htable : (table.map Prod.fst).Nodup) {key : κ}
    {value : ν} : value? key table = some value ↔ (key, value) ∈ table := by
  induction table with
  | nil => simp [value?]
  | cons entry rest ih =>
    obtain ⟨first, found⟩ := entry
    rw [List.map_cons, List.nodup_cons] at htable
    by_cases hfirst : first = key
    · subst hfirst
      have habsent : (first, value) ∉ rest := by
        intro hrest
        have hkey : first ∈ rest.map Prod.fst := List.mem_map.2 ⟨(first, value), hrest, rfl⟩
        exact htable.1 hkey
      simp [value?, habsent, eq_comm]
    · simp [value?, hfirst, Ne.symm hfirst, ih htable.2]

/-- A value that is looked up stands in the table, under its key. -/
theorem mem_of_value?_eq_some {table : Table κ ν} {key : κ} {value : ν}
    (hvalue : value? key table = some value) : (key, value) ∈ table := by
  induction table with
  | nil => simp [value?] at hvalue
  | cons entry rest ih =>
    obtain ⟨first, found⟩ := entry
    rw [value?] at hvalue
    split at hvalue
    · next hfirst =>
      cases hvalue
      exact hfirst ▸ List.mem_cons_self
    · exact List.mem_cons_of_mem _ (ih hvalue)

theorem isSome_value?_iff {table : Table κ ν} {key : κ} :
    (value? key table).isSome ↔ key ∈ table.map Prod.fst := by
  induction table with
  | nil => simp [value?]
  | cons entry rest ih =>
    obtain ⟨first, found⟩ := entry
    by_cases hfirst : first = key
    · simp [value?, hfirst]
    · simp [value?, hfirst, Ne.symm hfirst, ih]

/-- A key is looked up in the first table, and in the second if the first does not have it. -/
theorem value?_append (left right : Table κ ν) (key : κ) :
    value? key (left ++ right) = (value? key left).or (value? key right) := by
  induction left with
  | nil => rfl
  | cons entry rest ih =>
    obtain ⟨first, found⟩ := entry
    rw [List.cons_append, value?, value?]
    split
    · rfl
    · exact ih

theorem value?_map {μ : Type} (table : Table κ ν) (change : κ → ν → μ) (key : κ) :
    value? key (table.map fun entry => (entry.1, change entry.1 entry.2)) =
      (value? key table).map (change key) := by
  induction table with
  | nil => rfl
  | cons entry rest ih =>
    obtain ⟨first, found⟩ := entry
    rw [List.map_cons, value?, value?]
    split
    · next hfirst => rw [hfirst, Option.map_some]
    · exact ih

@[simp]
theorem value?_put (table : Table κ ν) (key other : κ) (value : ν) :
    value? other (put table key value) = if key = other then some value else value? other table :=
  value?_alter table key other fun _ => value

section Put

variable {table : Table κ ν} {key : κ}

/-- An entry under a new key comes last. -/
theorem put_of_not_mem (hnew : key ∉ table.map Prod.fst) (value : ν) :
    put table key value = table ++ [(key, value)] := by
  induction table with
  | nil => rfl
  | cons entry rest ih =>
    obtain ⟨first, known⟩ := entry
    rw [List.map_cons, List.mem_cons, not_or] at hnew
    have hrest : alter key (fun _ => value) rest = rest ++ [(key, value)] := ih hnew.2
    rw [put, alter, if_neg (Ne.symm hnew.1), hrest, List.cons_append]

/-- A new value under a known key stands where the old one stood. -/
theorem put_of_mem (hknown : key ∈ table.map Prod.fst) (hnodup : (table.map Prod.fst).Nodup)
    (value : ν) :
    put table key value =
      table.map fun entry => (entry.1, if entry.1 = key then value else entry.2) := by
  induction table with
  | nil => simp at hknown
  | cons entry rest ih =>
    obtain ⟨first, known⟩ := entry
    rw [List.map_cons, List.nodup_cons] at hnodup
    by_cases hfirst : first = key
    · have hothers : ∀ entry ∈ rest,
          (entry.1, if entry.1 = key then value else entry.2) = entry := by
        intro entry hentry
        have hmem : entry.1 ∈ rest.map Prod.fst := List.mem_map_of_mem hentry
        rw [if_neg fun hown : entry.1 = key => hnodup.1 (hfirst.trans hown.symm ▸ hmem)]
      rw [put, alter, if_pos hfirst, List.map_cons, List.map_congr_left hothers, List.map_id',
        if_pos hfirst]
    · rw [List.map_cons, List.mem_cons] at hknown
      have hrest := ih (hknown.resolve_left (Ne.symm hfirst)) hnodup.2
      rw [put] at hrest ⊢
      rw [alter, if_neg hfirst, hrest, List.map_cons, if_neg hfirst]

end Put

end Table
end RegexAutomata
