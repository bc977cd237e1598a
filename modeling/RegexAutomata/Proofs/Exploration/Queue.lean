import RegexAutomata.Proofs.Exploration.Fresh
import RegexAutomata.Proofs.Exploration.Worklist

/-!
# The queue of a search

A search expands the key that comes after those with a row.  Here the numbers of the keys that are
still to be expanded stand in a queue: the next one is taken from its front, and the numbers of new
keys join it at its end.  Such a queue always holds the numbers from the count of the rows up to the
count of the keys, so that both searches are the same.
-/

namespace RegexAutomata.Exploration

variable {κ : Type} [Ord κ]

/-- The keys that are expanded, each with the edges that leave it. -/
def expanded (exploration : Exploration κ) : List (κ × List Discovery) :=
  exploration.entries.take exploration.rows.size

/-- The numbers of the keys that are not expanded yet. -/
def waiting (exploration : Exploration κ) : List Nat :=
  List.range' exploration.rows.size (exploration.found.size - exploration.rows.size)

section Expanded

theorem length_expanded {exploration : Exploration κ}
    (hrows : exploration.rows.size ≤ exploration.found.size) :
    exploration.expanded.length = exploration.rows.size := by
  have hlength : exploration.entries.length = exploration.found.size := by
    rw [entries, List.length_mapIdx]
    rfl
  rw [expanded, List.length_take, hlength, Nat.min_eq_left hrows]

/-- A key that is expanded comes last. -/
theorem expanded_push {found extended : Numbering κ} {rows : Array (List Discovery)} {key : κ}
    (hkey : found.key? rows.size = some key) (hextends : found.Extends extended)
    (row : List Discovery) :
    expanded ⟨extended, rows.push row⟩ = expanded ⟨found, rows⟩ ++ [(key, row)] := by
  have hearlier : (entries ⟨extended, rows.push row⟩).take rows.size =
      (entries ⟨found, rows⟩).take rows.size := by
    apply List.ext_getElem?
    intro number
    rw [List.getElem?_take, List.getElem?_take]
    split
    · next hnumber =>
      have hbound : number < found.size :=
        Nat.lt_trans hnumber (Numbering.lt_size_iff.2 ⟨key, hkey⟩)
      obtain ⟨other, hother⟩ := Numbering.lt_size_iff.1 hbound
      rw [getElem?_entries, getElem?_entries, hother, hextends _ _ hother,
        Array.getElem?_push_lt hnumber, Array.getElem?_eq_getElem hnumber]
    · rfl
  have hown : (entries ⟨extended, rows.push row⟩)[rows.size]? = some (key, row) := by
    rw [getElem?_entries, hextends _ _ hkey, Array.getElem?_push_size]
    rfl
  rw [expanded, Array.size_push, List.take_add_one, hearlier, hown]
  rfl

/-- When a search has ended, all keys are expanded. -/
theorem Complete.expanded_eq_entries {step : κ → String → Except Failure (Option κ)}
    {symbols : List String} {first : κ} {exploration : Exploration κ}
    (hcomplete : Complete step symbols first exploration) :
    exploration.expanded = exploration.entries := by
  have hlength : exploration.entries.length = exploration.rows.size := by
    rw [entries, List.length_mapIdx, hcomplete.rows_eq]
    rfl
  rw [expanded, ← hlength, List.take_length]

end Expanded

section Waiting

variable {found extended : Numbering κ} {rows : Array (List Discovery)} {key : κ}

theorem waiting_of_none (hnone : found.key? rows.size = none) :
    waiting ⟨found, rows⟩ = [] := by
  have hsize : ¬ rows.size < found.size := by
    rw [Numbering.lt_size_iff, hnone]
    simp
  rw [waiting, Nat.sub_eq_zero_of_le (Nat.not_lt.1 hsize)]
  rfl

theorem waiting_of_some (hkey : found.key? rows.size = some key) (row : List Discovery) :
    waiting ⟨found, rows⟩ = rows.size :: waiting ⟨found, rows.push row⟩ := by
  have hsize : rows.size < found.size := Numbering.lt_size_iff.2 ⟨key, hkey⟩
  have hcount : found.size - rows.size = found.size - (rows.size + 1) + 1 := by omega
  rw [waiting, waiting, Array.size_push]
  dsimp only
  rw [hcount, List.range'_succ]

/-- New keys join the queue at its end. -/
theorem waiting_append (hrows : rows.size ≤ found.size) (hgrows : found.size ≤ extended.size) :
    waiting ⟨found, rows⟩ ++ List.range' found.size (extended.size - found.size) =
      waiting ⟨extended, rows⟩ := by
  have hstart : rows.size + (found.size - rows.size) = found.size := by omega
  have hcount : found.size - rows.size + (extended.size - found.size) =
      extended.size - rows.size := by omega
  rw [waiting, waiting]
  dsimp only
  rw [← hcount, ← List.range'_append_1, hstart]

end Waiting

/-- A search with its queue: the keys that are numbered, the numbers of those to be expanded, and
the edges of those that are expanded, each with its number. -/
structure Service (κ : Type) [Ord κ] where
  found : Numbering κ
  queue : List Nat
  served : List (Nat × List Discovery) := []

variable [Std.TransOrd κ] [Std.LawfulEqOrd κ] (step : κ → String → Except Failure (Option κ))
  (limit : Option Int) (symbols : List String)

/-- Expands the key of the number at the front of the queue, and lets the numbers of new keys join
the queue at its end, as long as the queue is not empty and fuel lasts. -/
def serve : Nat → Service κ → Except Failure (Service κ)
  | 0, service => .ok service
  | fuel + 1, service =>
    match service.queue with
    | [] => .ok service
    | number :: queue =>
      match service.found.key? number with
      | none => .error .noSuchState
      | some key => do
        let (row, found) ← expand step limit key symbols service.found
        serve fuel ⟨found, queue ++ row.filterMap Discovery.freshTarget?,
          service.served ++ [(number, row)]⟩

/-- The queue of a search that has got to some point. -/
def Service.ofExploration (exploration : Exploration κ) : Service κ where
  found := exploration.found
  queue := exploration.waiting
  served := exploration.rows.toList.zipIdx.map Prod.swap

variable {step limit symbols}

section Served

variable {fuel number : Nat} {found : Numbering κ} {key : κ} {queue : List Nat}
  {served : List (Nat × List Discovery)}

theorem serve_nil :
    serve step limit symbols fuel ⟨found, [], served⟩ = .ok ⟨found, [], served⟩ := by
  cases fuel <;> rfl

theorem serve_cons (hkey : found.key? number = some key) :
    serve step limit symbols (fuel + 1) ⟨found, number :: queue, served⟩ = (do
      let (row, extended) ← expand step limit key symbols found
      serve step limit symbols fuel ⟨extended, queue ++ row.filterMap Discovery.freshTarget?,
        served ++ [(number, row)]⟩) := by
  simp only [serve, hkey]

end Served

/-- A search with its queue is the search that takes the keys by number. -/
theorem serve_ofExploration {fuel : Nat} {exploration : Exploration κ} :
    serve step limit symbols fuel (.ofExploration exploration) =
      Service.ofExploration <$> continueFrom step limit symbols fuel exploration := by
  induction fuel generalizing exploration with
  | zero => rfl
  | succ fuel ih =>
    obtain ⟨found, rows⟩ := exploration
    cases hkey : found.key? rows.size with
    | none =>
      have hdone : Service.ofExploration ⟨found, rows⟩ =
          ⟨found, [], rows.toList.zipIdx.map Prod.swap⟩ := by
        rw [Service.ofExploration, waiting_of_none hkey]
      simp only [continueFrom, hkey]
      rw [hdone, serve_nil]
      exact congrArg Except.ok hdone.symm
    | some key =>
      rw [Service.ofExploration, waiting_of_some hkey [], serve_cons hkey]
      simp only [continueFrom, hkey]
      cases hexpand : expand step limit key symbols found with
      | error failure => rfl
      | ok result =>
        obtain ⟨row, extended⟩ := result
        have hrows : rows.size < found.size := Numbering.lt_size_iff.2 ⟨key, hkey⟩
        have hqueue : waiting ⟨found, rows.push []⟩ ++ row.filterMap Discovery.freshTarget? =
            waiting ⟨extended, rows.push row⟩ := by
          rw [freshTargets_expand hexpand]
          refine (waiting_append ?_ (expand_size_le hexpand)).trans ?_
          · rw [Array.size_push]
            exact hrows
          · rw [waiting, waiting, Array.size_push, Array.size_push]
        have hserved : (rows.push row).toList.zipIdx.map Prod.swap =
            rows.toList.zipIdx.map Prod.swap ++ [(rows.size, row)] := by
          simp [List.zipIdx_append]
        simp only [hqueue, ← hserved, bind, Except.bind]
        exact @ih ⟨extended, rows.push row⟩

/-- From the first key on the queue runs dry as soon as each key has been taken up, which happens
once and in the order of the numbers. -/
def EmptiesQueue (step : κ → String → Except Failure (Option κ)) (symbols : List String) (first : κ)
    (final : Exploration κ) : Prop :=
  ∃ found, locate none .empty first = .ok (0, true, found) ∧
    ∀ fuel, final.found.size ≤ fuel → serve step none symbols fuel ⟨found, [0], []⟩ =
      .ok ⟨final.found, [], final.rows.toList.zipIdx.map Prod.swap⟩

/-- A search with a queue takes up the same keys in the same order as one that counts. -/
theorem emptiesQueue_run {fuel : Nat} {first : κ} {final : Exploration κ}
    (hrun : run step none symbols fuel first = .ok final)
    (hcomplete : Complete step symbols first final) : EmptiesQueue step symbols first final := by
  obtain ⟨-, found, hlocate, hdrains⟩ := expandsEachOnce_run hrun hcomplete
  refine ⟨found, hlocate, fun enough henough => ?_⟩
  have hsize : found.size = 1 := by
    rcases locate_eq_ok hlocate with ⟨hnumber, -, -⟩ | ⟨hnew, -, -, rfl⟩
    · cases Numbering.number?_empty.symm.trans hnumber
    · exact size_push hnew
  have hstart : Service.ofExploration { found } = ⟨found, [0], []⟩ := by
    rw [Service.ofExploration, waiting]
    dsimp only
    rw [hsize]
    rfl
  have hend : Service.ofExploration final =
      ⟨final.found, [], final.rows.toList.zipIdx.map Prod.swap⟩ := by
    rw [Service.ofExploration, waiting_of_none hcomplete.key?_size]
  have hkeys : final.found.keys.toList.length ≤ enough := henough
  rw [← hstart, serve_ofExploration, hdrains.continueFrom_eq hkeys]
  exact congrArg Except.ok hend

end RegexAutomata.Exploration
