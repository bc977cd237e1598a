import RegexAutomata.Exploration
import RegexAutomata.Proofs.Collection.Traversal

/-!
# Searches with a limit

A limit changes nothing as long as there are no more keys than it allows.  If there are more, the
search fails, since keys are never given up again.
-/

namespace RegexAutomata.Exploration

variable {κ : Type} [Ord κ] [Std.TransOrd κ] [Std.LawfulEqOrd κ]
  {step : κ → String → Except Failure (Option κ)} {symbols : List String} {limit : Int}
  {bound : Option Int}

/-- What comes of a search that finds so many keys and is done with them. -/
def within {α : Type} (limit : Int) (count : Nat) (result : α) : Except Failure α :=
  if (count : Int) ≤ limit then .ok result else .error (.tooManyStates limit)

section Within

variable {α β : Type} {count more : Nat} {result : α} {value : β}

theorem within_of_le (hroom : (count : Int) ≤ limit) (result : α) :
    within limit count result = .ok result :=
  if_pos hroom

theorem within_of_not_le (hover : ¬ (count : Int) ≤ limit) (result : α) :
    within limit count result = .error (.tooManyStates limit) :=
  if_neg hover

theorem within_eq_ok_iff {other : α} :
    within limit count result = .ok other ↔ (count : Int) ≤ limit ∧ result = other := by
  by_cases hroom : (count : Int) ≤ limit
  · rw [within_of_le hroom, Except.ok.injEq, and_iff_right hroom]
  · rw [within_of_not_le hroom]
    exact ⟨fun hnever => (nomatch hnever), fun hpossible => absurd hpossible.1 hroom⟩

/-- A search that goes on may fail now or later, which makes no difference, since the number of keys
only grows. -/
theorem within_bind {next : α → Except Failure β} (hgrows : count ≤ more)
    (hnext : (count : Int) ≤ limit → next result = within limit more value) :
    (within limit count result >>= next) = within limit more value := by
  by_cases hroom : (count : Int) ≤ limit
  · rw [within_of_le hroom]
    exact hnext hroom
  · rw [within_of_not_le hroom, within_of_not_le (by omega)]
    rfl

/-- Two searches in a row keep to the limit if the larger one does. -/
theorem within_bind_within {next : α → Except Failure β}
    (hnext : next result = within limit more value) :
    (within limit count result >>= next) = within limit (max count more) value := by
  by_cases hroom : (count : Int) ≤ limit
  · rw [within_of_le hroom]
    refine hnext.trans ?_
    by_cases hmore : (more : Int) ≤ limit
    · rw [within_of_le hmore, within_of_le (by omega)]
    · rw [within_of_not_le hmore, within_of_not_le (by omega)]
  · rw [within_of_not_le hroom, within_of_not_le (by omega)]
    rfl

end Within

section Locate

variable {found extended : Numbering κ} {key : κ} {target : Nat} {fresh : Bool}

theorem locate_of_known {number : Nat} (hnumber : found.number? key = some number) :
    locate bound found key = .ok (number, false, found) := by
  unfold locate
  split
  · next known hknown => rw [Option.some.inj (hknown.symm.trans hnumber)]
  · next hnew => simp [hnumber] at hnew

theorem locate_of_new (hnew : found.number? key = none) :
    locate bound found key = do
      room bound found.size
      return (found.size, true, found.push key hnew) := by
  unfold locate
  split
  · next number hnumber => simp [hnumber] at hnew
  · rfl

theorem locate_eq_ok (hlocate : locate bound found key = .ok (target, fresh, extended)) :
    (found.number? key = some target ∧ fresh = false ∧ extended = found) ∨
      ∃ hnew : found.number? key = none,
        target = found.size ∧ fresh = true ∧ extended = found.push key hnew := by
  rcases Option.eq_none_or_eq_some (found.number? key) with hnew | ⟨number, hnumber⟩
  · rw [locate_of_new hnew] at hlocate
    obtain ⟨-, -, hresult⟩ := Traversal.bind_eq_ok_iff.1 hlocate
    cases hresult
    exact Or.inr ⟨hnew, rfl, rfl, rfl⟩
  · rw [locate_of_known hnumber] at hlocate
    cases hlocate
    exact Or.inl ⟨hnumber, rfl, rfl⟩

theorem size_push (hnew : found.number? key = none) :
    (found.push key hnew).size = found.size + 1 :=
  Array.size_push _

theorem locate_size_le (hlocate : locate bound found key = .ok (target, fresh, extended)) :
    found.size ≤ extended.size := by
  rcases locate_eq_ok hlocate with ⟨-, -, rfl⟩ | ⟨hnew, -, -, rfl⟩
  · exact Nat.le_refl _
  · rw [size_push]
    exact Nat.le_succ _

theorem locate_some_of_new (hnew : found.number? key = none) (limit : Int) :
    locate (some limit) found key =
      within limit (found.size + 1) (found.size, true, found.push key hnew) := by
  rw [locate_of_new hnew]
  by_cases hroom : limit ≤ found.size
  · rw [room, if_pos hroom, within_of_not_le (by omega)]
    rfl
  · rw [room, if_neg hroom, within_of_le (by omega)]
    rfl

theorem locate_some (hroom : (found.size : Int) ≤ limit)
    (hlocate : locate none found key = .ok (target, fresh, extended)) :
    locate (some limit) found key = within limit extended.size (target, fresh, extended) := by
  rcases locate_eq_ok hlocate with ⟨hnumber, rfl, rfl⟩ | ⟨hnew, rfl, rfl, rfl⟩
  · rw [within_of_le hroom, locate_of_known hnumber]
  · rw [locate_some_of_new hnew, size_push]

end Locate

section Expand

variable {key next : κ} {found final extended : Numbering κ} {row : List Discovery}

theorem expand_cons_none {symbol : String} (hstep : step key symbol = .ok none)
    (bound : Option Int) :
    expand step bound key (symbol :: symbols) found = expand step bound key symbols found := by
  rw [expand, hstep]
  rfl

theorem expand_cons_some {symbol : String} (hstep : step key symbol = .ok (some next))
    (bound : Option Int) :
    expand step bound key (symbol :: symbols) found = do
      let (target, fresh, extended) ← locate bound found next
      let (row, final) ← expand step bound key symbols extended
      return (⟨symbol, target, fresh⟩ :: row, final) := by
  rw [expand, hstep]
  rfl

/-- Expanding a key with a symbol in front numbers what the symbol leads to, and goes on. -/
theorem expand_cons_eq_ok {symbol : String}
    (hexpand : expand step bound key (symbol :: symbols) found = .ok (row, final)) :
    (step key symbol = .ok none ∧ expand step bound key symbols found = .ok (row, final)) ∨
      ∃ next target fresh extended rest, step key symbol = .ok (some next) ∧
        locate bound found next = .ok (target, fresh, extended) ∧
        expand step bound key symbols extended = .ok (rest, final) ∧
        row = ⟨symbol, target, fresh⟩ :: rest := by
  obtain ⟨next, hstep, -⟩ := Traversal.bind_eq_ok_iff.1 hexpand
  cases next with
  | none => exact Or.inl ⟨hstep, (expand_cons_none hstep bound).symm.trans hexpand⟩
  | some next =>
    rw [expand_cons_some hstep bound, Traversal.bind_eq_ok_iff] at hexpand
    obtain ⟨⟨target, fresh, extended⟩, hlocate, hrest⟩ := hexpand
    obtain ⟨⟨rest, _⟩, hothers, hresult⟩ := Traversal.bind_eq_ok_iff.1 hrest
    cases hresult
    exact Or.inr ⟨next, target, fresh, extended, rest, hstep, hlocate, hothers, rfl⟩

theorem expand_size_le (hexpand : expand step bound key symbols found = .ok (row, final)) :
    found.size ≤ final.size := by
  induction symbols generalizing found row with
  | nil =>
    cases hexpand
    exact Nat.le_refl _
  | cons symbol symbols ih =>
    rcases expand_cons_eq_ok hexpand with
      ⟨-, hrest⟩ | ⟨next, target, fresh, extended, rest, -, hlocate, hrest, -⟩
    · exact ih hrest
    · exact Nat.le_trans (locate_size_le hlocate) (ih hrest)

/-- With a limit a key is expanded in the same way, if there is room for all that it leads to. -/
theorem expand_some (hroom : (found.size : Int) ≤ limit)
    (hexpand : expand step none key symbols found = .ok (row, final)) :
    expand step (some limit) key symbols found = within limit final.size (row, final) := by
  induction symbols generalizing found row with
  | nil =>
    cases hexpand
    exact (within_of_le hroom _).symm
  | cons symbol symbols ih =>
    rcases expand_cons_eq_ok hexpand with
      ⟨hstep, hrest⟩ | ⟨next, target, fresh, extended, rest, hstep, hlocate, hrest, rfl⟩
    · rw [expand_cons_none hstep]
      exact ih hroom hrest
    · rw [expand_cons_some hstep, locate_some hroom hlocate]
      refine within_bind (expand_size_le hrest) fun hunder => ?_
      dsimp only
      rw [ih hunder hrest]
      exact within_bind (Nat.le_refl _) fun hfinal => (within_of_le hfinal _).symm

end Expand

section Run

variable {first : κ} {exploration final : Exploration κ} {fuel : Nat}

/-- A search that goes on expands the next key, unless there is none. -/
theorem continueFrom_succ_eq_ok
    (hcontinue : continueFrom step bound symbols (fuel + 1) exploration = .ok final) :
    (exploration.found.key? exploration.rows.size = none ∧ exploration = final) ∨
      ∃ key row found, exploration.found.key? exploration.rows.size = some key ∧
        expand step bound key symbols exploration.found = .ok (row, found) ∧
        continueFrom step bound symbols fuel ⟨found, exploration.rows.push row⟩ = .ok final := by
  rw [continueFrom] at hcontinue
  cases hkey : exploration.found.key? exploration.rows.size with
  | none =>
    rw [hkey] at hcontinue
    exact Or.inl ⟨rfl, Except.ok.inj hcontinue⟩
  | some key =>
    rw [hkey] at hcontinue
    obtain ⟨⟨row, found⟩, hexpand, hrest⟩ := Traversal.bind_eq_ok_iff.1 hcontinue
    exact Or.inr ⟨key, row, found, rfl, hexpand, hrest⟩

theorem continueFrom_size_le
    (hcontinue : continueFrom step bound symbols fuel exploration = .ok final) :
    exploration.found.size ≤ final.found.size := by
  induction fuel generalizing exploration with
  | zero =>
    cases hcontinue
    exact Nat.le_refl _
  | succ fuel ih =>
    rcases continueFrom_succ_eq_ok hcontinue with ⟨-, rfl⟩ | ⟨key, row, found, -, hexpand, hrest⟩
    · exact Nat.le_refl _
    · exact Nat.le_trans (expand_size_le hexpand) (ih hrest)

/-- With a limit the search goes the same way, as far as there is room. -/
theorem continueFrom_some (hroom : (exploration.found.size : Int) ≤ limit)
    (hcontinue : continueFrom step none symbols fuel exploration = .ok final) :
    continueFrom step (some limit) symbols fuel exploration =
      within limit final.found.size final := by
  induction fuel generalizing exploration with
  | zero =>
    cases hcontinue
    exact (within_of_le hroom _).symm
  | succ fuel ih =>
    rcases continueFrom_succ_eq_ok hcontinue with
      ⟨hkey, rfl⟩ | ⟨key, row, found, hkey, hexpand, hrest⟩
    · rw [continueFrom, hkey, within_of_le hroom]
    · have hgrows : found.size ≤ final.found.size := continueFrom_size_le hrest
      rw [continueFrom, hkey]
      dsimp only
      rw [expand_some hroom hexpand]
      exact within_bind hgrows fun hunder => ih hunder hrest

/-- A search that succeeds without a limit succeeds with one if there is no more than so many
keys, and then finds the same, and fails if there are more. -/
theorem run_some (limit : Int) (hrun : run step none symbols fuel first = .ok final) :
    run step (some limit) symbols fuel first = within limit final.found.size final := by
  obtain ⟨⟨target, fresh, found⟩, hlocate, hcontinue⟩ := Traversal.bind_eq_ok_iff.1 hrun
  have hgrows := continueFrom_size_le hcontinue
  rcases locate_eq_ok hlocate with ⟨hnumber, -, -⟩ | ⟨hnew, rfl, rfl, rfl⟩
  · cases Numbering.number?_empty.symm.trans hnumber
  · rw [run, locate_some_of_new hnew]
    exact within_bind hgrows fun hunder => continueFrom_some hunder hcontinue

end Run

end RegexAutomata.Exploration
