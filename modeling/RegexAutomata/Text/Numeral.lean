import RegexAutomata.Text.Blank

/-!
# Whole numbers in running text

A whole number may be written with the decimal digits of any script in Unicode 14, with a sign,
with single low lines between digits to group them, and with blanks around it.  A numeral of very
many digits is not read at all.
-/

namespace RegexAutomata.Text

/-- The code points of the digits for zero.  In every script the other nine digits follow the
zero in order. -/
def zeroDigits : List Nat := [
  0x30, 0x660, 0x6f0, 0x7c0, 0x966, 0x9e6, 0xa66, 0xae6, 0xb66, 0xbe6, 0xc66, 0xce6, 0xd66,
  0xde6, 0xe50, 0xed0, 0xf20, 0x1040, 0x1090, 0x17e0, 0x1810, 0x1946, 0x19d0, 0x1a80, 0x1a90,
  0x1b50, 0x1bb0, 0x1c40, 0x1c50, 0xa620, 0xa8d0, 0xa900, 0xa9d0, 0xa9f0, 0xaa50, 0xabf0,
  0xff10, 0x104a0, 0x10d30, 0x11066, 0x110f0, 0x11136, 0x111d0, 0x112f0, 0x11450, 0x114d0,
  0x11650, 0x116c0, 0x11730, 0x118e0, 0x11950, 0x11c50, 0x11d50, 0x11da0, 0x16a60, 0x16ac0,
  0x16b50, 0x1d7ce, 0x1d7d8, 0x1d7e2, 0x1d7ec, 0x1d7f6, 0x1e140, 0x1e2f0, 0x1e950, 0x1fbf0]

/-- The value of a decimal digit, in whatever script it is written. -/
def digitValue? (character : Char) : Option Nat :=
  zeroDigits.findSome? fun first =>
    if first ≤ character.toNat ∧ character.toNat ≤ first + 9 then
      some (character.toNat - first)
    else none

def hexDigitValue? (character : Char) : Option Nat :=
  if character.isDigit then some (character.toNat - '0'.toNat)
  else if 'a' ≤ character ∧ character ≤ 'f' then some (character.toNat - 'a'.toNat + 10)
  else if 'A' ≤ character ∧ character ≤ 'F' then some (character.toNat - 'A'.toNat + 10)
  else none

/-- The most digits that a numeral may have, zeros in front included. -/
def mostDigits : Nat := 4300

def decimalValue (digits : List Nat) : Nat :=
  digits.foldl (fun value digit => 10 * value + digit) 0

inductive NumeralError where
  /-- It is not made like a numeral. -/
  | malformed
  /-- It has too many digits. -/
  | tooManyDigits (count : Nat)
  deriving DecidableEq, Repr

/-- The digits in front that may follow a digit, and what comes after them.  Each may be set off
by one low line, but there is no low line without a digit after it. -/
def digitsAfter? : List Char → Option (List Nat × List Char)
  | [] => some ([], [])
  | '_' :: character :: rest =>
    match digitValue? character, digitsAfter? rest with
    | some digit, some (digits, after) => some (digit :: digits, after)
    | _, _ => none
  | ['_'] => none
  | character :: rest =>
    match digitValue? character with
    | some digit => (digitsAfter? rest).map fun found => (digit :: found.1, found.2)
    | none => some ([], character :: rest)

/-- The digits in front, and what comes after them: there is at least one, and a low line stands
only between two of them. -/
def digits? : List Char → Option (List Nat × List Char)
  | [] => none
  | character :: rest => do
    let digit ← digitValue? character
    let (digits, after) ← digitsAfter? rest
    return (digit :: digits, after)

/-- An unsigned numeral.  That there are too many digits is found before what comes after them is
looked at. -/
def unsigned? (characters : List Char) : Except NumeralError Nat :=
  match digits? characters with
  | none => .error .malformed
  | some (digits, after) =>
    if mostDigits < digits.length then .error (.tooManyDigits digits.length)
    else if after.isEmpty then .ok (decimalValue digits)
    else .error .malformed

/-- A numeral with at most one sign in front. -/
def signed? : List Char → Except NumeralError Int
  | '-' :: rest => do return -((← unsigned? rest : Nat) : Int)
  | '+' :: rest => do return ((← unsigned? rest : Nat) : Int)
  | characters => do return ((← unsigned? characters : Nat) : Int)

/-- The whole number that a text spells, blanks around it left out. -/
def integer? (text : String) : Except NumeralError Int :=
  signed? (trimmed isWhiteSpace text.toList)

end RegexAutomata.Text
