import RegexAutomata.Proofs.Text.Decimal
import RegexAutomata.Service.Rate

/-!
# Counts of requests

What a rate admits is read from its text.  A request that is let through is counted under its client
and its route, and under nothing else; once the count has come to what the rate admits, it stays.
-/

namespace RegexAutomata.Rate

section Reading

variable {amount : Nat}

def perUnit (amount : Nat) (unit : TimeUnit) : String :=
  toString amount ++ "/" ++ unit.name

theorem toList_perUnit (amount : Nat) (unit : TimeUnit) :
    (perUnit amount unit).toList = Nat.toDigits 10 amount ++ '/' :: unit.name.toList := by
  rw [perUnit, String.toList_append, String.toList_append, Text.toList_toString,
    List.append_assoc]
  rfl

theorem decimalValue_toDigits (amount : Nat) :
    Text.decimalValue ((Nat.toDigits 10 amount).map fun digit => digit.toNat - '0'.toNat) =
      amount := by
  rw [Text.decimalValue, List.foldl_map, ← Nat.ofDigitChars_eq_foldl,
    Nat.ofDigitChars_toDigits (by decide) (by decide)]

/-- A number in front of something else is read to its last digit. -/
theorem number?_toDigits (hdigits : (toString amount).length ≤ Text.mostDigits) {rest : List Char}
    (hrest : rest.head?.any Char.isDigit = false) :
    number? (Nat.toDigits 10 amount ++ rest) = some (amount, rest) := by
  have hall : ∀ character ∈ Nat.toDigits 10 amount, character.isDigit :=
    fun character => Text.isDigit_of_mem_toDigits
  have hstop : rest.takeWhile Char.isDigit = [] ∧ rest.dropWhile Char.isDigit = rest := by
    cases rest with
    | nil => exact ⟨rfl, rfl⟩
    | cons head rest =>
      have hhead : head.isDigit = false := hrest
      simp [hhead]
  have hlength : (Nat.toDigits 10 amount).length ≤ Text.mostDigits := by
    rwa [← String.length_toList, Text.toList_toString] at hdigits
  have hfilled : (Nat.toDigits 10 amount).isEmpty = false :=
    List.isEmpty_eq_false_iff.2 Nat.toDigits_ne_nil
  rw [number?, List.takeWhile_append_of_pos hall, List.dropWhile_append_of_pos hall, hstop.1,
    hstop.2, List.append_nil, decimalValue_toDigits, hfilled]
  simp [Nat.not_lt.2 hlength]

theorem skipBlanks_toDigits (amount : Nat) (rest : List Char) :
    skipBlanks (Nat.toDigits 10 amount ++ rest) = Nat.toDigits 10 amount ++ rest := by
  obtain ⟨head, others, hdigits⟩ := List.exists_cons_of_ne_nil (@Nat.toDigits_ne_nil amount 10)
  have hhead : head.isDigit := Text.isDigit_of_mem_toDigits (hdigits ▸ List.mem_cons_self)
  rw [hdigits, skipBlanks, List.cons_append, List.dropWhile_cons, Text.isSeparator_of_isDigit hhead]
  rfl

/-- What stands behind the number in the text of a rate is read in the same way for all numbers. -/
theorem limit?_perUnit (hdigits : (toString amount).length ≤ Text.mostDigits) (unit : TimeUnit) :
    limit? (perUnit amount unit).toList = some ⟨amount, 1, unit⟩ := by
  have hnumber : number? (skipBlanks (Nat.toDigits 10 amount ++ '/' :: unit.name.toList)) =
      some (amount, '/' :: unit.name.toList) := by
    rw [skipBlanks_toDigits, number?_toDigits hdigits rfl]
  rw [limit?, toList_perUnit, hnumber]
  cases unit <;> rfl

theorem not_isMark {character : Char} {unit : TimeUnit}
    (hcharacter : character ∈ (perUnit amount unit).toList) : isMark character = false := by
  rw [toList_perUnit, List.mem_append] at hcharacter
  rcases hcharacter with hdigit | hletter
  · have hdigit := Text.isDigit_of_mem_toDigits hdigit
    refine Bool.eq_false_iff.2 fun hmark => ?_
    simp only [isMark, Bool.or_eq_true, beq_iff_eq] at hmark
    rcases hmark with (rfl | rfl) | rfl <;> exact absurd hdigit (by decide)
  · have hname : ('/' :: unit.name.toList).all (fun letter => !isMark letter) = true := by
      cases unit <;> decide
    simpa using List.all_eq_true.1 hname character hletter

theorem limits?_perUnit (hdigits : (toString amount).length ≤ Text.mostDigits) (unit : TimeUnit) :
    limits? (perUnit amount unit) = some [⟨amount, 1, unit⟩] := by
  rw [limits?, List.splitOnP_eq_singleton fun _ => not_isMark]
  simp [limit?_perUnit hdigits]

/-- The text of a single limit admits what it says, whatever the common text is. -/
theorem allowanceOf_perUnit (hdigits : (toString amount).length ≤ Text.mostDigits) (unit : TimeUnit)
    (common : String) : allowanceOf (perUnit amount unit) common = some amount := by
  rw [allowanceOf, limits?_perUnit hdigits]
  simp [allowance]

end Reading

section Counting

variable {ρ : Type} [DecidableEq ρ] {counters : Counters ρ} {client other : String}
  {route place : ρ} {amount : Nat}

def count (counters : Counters ρ) (client : String) (route : ρ) : Nat :=
  (Table.value? (client, route) counters).getD 0

theorem grant_some (hclient : client ≠ "") :
    grant (some amount) client route counters =
      if count counters client route < amount then
        (true, Table.put counters (client, route) (count counters client route + 1))
      else (false, counters) := by
  have hname : client.isEmpty = false := by
    rw [← Bool.not_eq_true, String.isEmpty_iff]
    exact hclient
  simp only [grant, hname, Bool.false_eq_true, if_false]
  rfl

/-- Without an allowance nobody is turned away, and a client without a name never is. -/
theorem granted_eq_false_iff {allowance : Option Nat} :
    (grant allowance client route counters).1 = false ↔
      client ≠ "" ∧ ∃ amount, allowance = some amount ∧ amount ≤ count counters client route := by
  cases allowance with
  | none => simp [grant]
  | some amount =>
    by_cases hclient : client = ""
    · simp [grant, hclient]
    · rw [grant_some hclient]
      split
      · next hroom => simp [hroom]
      · next hfull => simp [hclient, Nat.le_of_not_lt hfull]

theorem count_put (value : Nat) :
    count (Table.put counters (client, route) value) other place =
      if (client, route) = (other, place) then value else count counters other place := by
  rw [count, Table.value?_put]
  split <;> rfl

/-- Other clients on the route, and the client on other routes, are not concerned. -/
theorem count_grant_of_ne (allowance : Option Nat) (hother : (client, route) ≠ (other, place)) :
    count (grant allowance client route counters).2 other place = count counters other place := by
  cases allowance with
  | none => rfl
  | some amount =>
    by_cases hclient : client = ""
    · simp [grant, hclient]
    · rw [grant_some hclient]
      split
      · rw [count_put, if_neg hother]
      · rfl

/-- The count goes up by one until it has come to what the rate admits. -/
theorem count_grant (hclient : client ≠ "") (hcount : count counters client route ≤ amount) :
    count (grant (some amount) client route counters).2 client route =
      min amount (count counters client route + 1) := by
  rw [grant_some hclient]
  split
  · rw [count_put, if_pos rfl]
    omega
  · show count counters client route = _
    omega

end Counting

end RegexAutomata.Rate
