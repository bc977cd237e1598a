import RegexAutomata.Text.Blank

/-!
# Numbers and stops in a text

A number is written with decimal digits.  So any other character may stand behind it as a stop: up
to the first stop a text determines what it begins with, and what comes after it.
-/

namespace RegexAutomata.Text

section Digits

variable {number left right : Nat} {character : Char}

theorem toList_toString (number : Nat) : (toString number).toList = Nat.toDigits 10 number := by
  rw [Nat.toString_eq_repr, Nat.toList_repr]

theorem isDigit_of_mem_toDigits (hmem : character ∈ Nat.toDigits 10 number) : character.isDigit :=
  Nat.isDigit_of_mem_toDigits (by decide) (by decide) hmem

theorem not_mem_toDigits (hother : character.isDigit = false) :
    character ∉ Nat.toDigits 10 number := by
  intro hmem
  rw [isDigit_of_mem_toDigits hmem] at hother
  cases hother

theorem toDigits_inj : Nat.toDigits 10 left = Nat.toDigits 10 right ↔ left = right := by
  refine ⟨fun hsame => ?_, congrArg _⟩
  rw [← Nat.ofDigitChars_toDigits (b := 10) (n := left) (by decide) (by decide), hsame,
    Nat.ofDigitChars_toDigits (by decide) (by decide)]

/-- No blank is a digit. -/
theorem isSeparator_of_isDigit (hdigit : character.isDigit) :
    isSeparator character = false := by
  have hbounds : 48 ≤ character.toNat ∧ character.toNat ≤ 57 := by
    simpa [Char.isDigit, UInt32.le_iff_toNat_le] using hdigit
  simp only [isSeparator, isWhiteSpace, Bool.or_eq_false_iff, Bool.and_eq_false_iff,
    decide_eq_false_iff_not, beq_eq_false_iff_ne]
  omega

end Digits

section Stops

variable {left right before after : List Char} {stop : Char}

/-- A stop in one text can meet no character before the stop in the other. -/
theorem append_cons_prefix_iff (hleft : stop ∉ left) (hright : stop ∉ right) :
    left ++ stop :: before <+: right ++ stop :: after ↔ left = right ∧ before <+: after := by
  induction left generalizing right with
  | nil =>
    cases right with
    | nil => simp
    | cons head rest =>
      have hhead : stop ≠ head := fun hstop => hright (hstop ▸ List.mem_cons_self)
      simp [hhead]
  | cons character left ih =>
    cases right with
    | nil =>
      have hcharacter : character ≠ stop := fun hstop => hleft (hstop ▸ List.mem_cons_self)
      simp [hcharacter]
    | cons head rest =>
      rw [List.cons_append, List.cons_append, List.cons_prefix_cons,
        ih (fun hstop => hleft (List.mem_cons_of_mem _ hstop))
          (fun hstop => hright (List.mem_cons_of_mem _ hstop)), List.cons_eq_cons, and_assoc]

/-- Up to the first place of a stop, a text determines its beginning and its end. -/
theorem append_cons_inj (hleft : stop ∉ left) (hright : stop ∉ right)
    (hsame : left ++ stop :: before = right ++ stop :: after) : left = right ∧ before = after := by
  obtain ⟨rfl, -⟩ := (append_cons_prefix_iff hleft hright).1
    ⟨[], (List.append_nil _).trans hsame⟩
  exact ⟨rfl, (List.cons.inj (List.append_cancel_left hsame)).2⟩

end Stops

end RegexAutomata.Text
