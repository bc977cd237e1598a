import RegexAutomata.Json.Basic
import RegexAutomata.Text.Numeral
import RegexAutomata.Text.Octets

/-!
# Reading JSON texts

A reader for whole JSON texts.  Blanks may stand around every token.  Besides the numbers of JSON
it takes the names of the three special floating-point values, and a whole number of too many
digits is refused.  There is no limit on how deep arrays and objects stand within each other: a
text is taken to be no deeper than its reader can follow.  The octets of a text tell its encoding,
and a byte order mark may come first in the narrowest one.
-/

namespace RegexAutomata.Json

def skipBlanks (characters : List Char) : List Char :=
  characters.dropWhile fun character =>
    character == ' ' || character == '\t' || character == '\n' || character == '\r'

def hexDigits? (first second third fourth : Char) : Option Nat := do
  let high := (← Text.hexDigitValue? first) * 16 + (← Text.hexDigitValue? second)
  let low := (← Text.hexDigitValue? third) * 16 + (← Text.hexDigitValue? fourth)
  return 256 * high + low

/-- The character that an escape of one letter stands for. -/
def escaped? : Char → Option Char
  | '"' => some '"'
  | '\\' => some '\\'
  | '/' => some '/'
  | 'b' => some '\x08'
  | 'f' => some '\x0c'
  | 'n' => some '\n'
  | 'r' => some '\r'
  | 't' => some '\t'
  | _ => none

/-- The code units of a string after its opening quote, and what comes after its closing quote. -/
def codeUnits? : List Char → Option (List Nat × List Char)
  | [] => none
  | '"' :: rest => some ([], rest)
  | '\\' :: 'u' :: first :: second :: third :: fourth :: rest => do
    let unit ← hexDigits? first second third fourth
    let (units, after) ← codeUnits? rest
    return (unit :: units, after)
  | '\\' :: letter :: rest => do
    let character ← escaped? letter
    let (units, after) ← codeUnits? rest
    return (character.toNat :: units, after)
  | character :: rest =>
    if character.toNat < 0x20 || character == '\\' then none
    else do
      let (units, after) ← codeUnits? rest
      return (character.toNat :: units, after)

def stringAfterQuote? (characters : List Char) : Option (String × List Char) :=
  (codeUnits? characters).map fun found => (String.ofList (Text.charactersOf found.1), found.2)

def leadingDigits (characters : List Char) : List Char × List Char :=
  (characters.takeWhile Char.isDigit, characters.dropWhile Char.isDigit)

/-- The fraction in front: a point and at least one digit; nothing if there is none. -/
def leadingFraction : List Char → List Char × List Char
  | '.' :: rest =>
    let (digits, after) := leadingDigits rest
    if digits.isEmpty then ([], '.' :: rest) else ('.' :: digits, after)
  | characters => ([], characters)

/-- The exponent in front: its letter, a sign or none, and at least one digit; nothing if there
is none. -/
def leadingExponent (characters : List Char) : List Char × List Char :=
  match characters with
  | letter :: rest =>
    let sign := (rest.take 1).filter fun character => character == '+' || character == '-'
    let (digits, after) := leadingDigits (rest.drop sign.length)
    if (letter == 'e' || letter == 'E') && !digits.isEmpty then (letter :: sign ++ digits, after)
    else ([], characters)
  | [] => ([], [])

/-- A number after its sign.  A zero in front takes no further digits. -/
def number? (negative : Bool) (characters : List Char) : Option (Json × List Char) :=
  let (whole, afterWhole) :=
    match characters with
    | '0' :: rest => (['0'], rest)
    | _ => leadingDigits characters
  if whole.isEmpty then none
  else
    let (fraction, afterFraction) := leadingFraction afterWhole
    let (exponent, after) := leadingExponent afterFraction
    let sign := if negative then ['-'] else []
    if fraction.isEmpty && exponent.isEmpty then
      if Text.mostDigits < whole.length then none
      else
        let value : Int := Text.decimalValue (whole.map fun digit => digit.toNat - '0'.toNat)
        some (.integer (if negative then -value else value), after)
    else some (.decimal (String.ofList (sign ++ whole ++ fraction ++ exponent)), after)

def scalar? : List Char → Option (Json × List Char)
  | 'n' :: 'u' :: 'l' :: 'l' :: rest => some (.null, rest)
  | 't' :: 'r' :: 'u' :: 'e' :: rest => some (.bool true, rest)
  | 'f' :: 'a' :: 'l' :: 's' :: 'e' :: rest => some (.bool false, rest)
  | 'N' :: 'a' :: 'N' :: rest => some (.decimal "NaN", rest)
  | 'I' :: 'n' :: 'f' :: 'i' :: 'n' :: 'i' :: 't' :: 'y' :: rest =>
    some (.decimal "Infinity", rest)
  | '-' :: 'I' :: 'n' :: 'f' :: 'i' :: 'n' :: 'i' :: 't' :: 'y' :: rest =>
    some (.decimal "-Infinity", rest)
  | '-' :: rest => number? true rest
  | characters => number? false characters

mutual

/-- A value in front, and what comes after it.  Each call uses up at least one character or is
the first at its place, so twice the number of characters is fuel enough. -/
def value? : Nat → List Char → Option (Json × List Char)
  | 0, _ => none
  | fuel + 1, characters =>
    match skipBlanks characters with
    | '"' :: rest => (stringAfterQuote? rest).map fun found => (.string found.1, found.2)
    | '[' :: rest =>
      match skipBlanks rest with
      | ']' :: after => some (.array [], after)
      | _ => (items? fuel rest).map fun found => (.array found.1, found.2)
    | '\x7b' :: rest =>
      match skipBlanks rest with
      | '\x7d' :: after => some (.object [], after)
      | _ => (members? fuel rest).map fun found => (.object found.1, found.2)
    | others => scalar? others

/-- The items of an array up to its closing bracket; there is at least one. -/
def items? : Nat → List Char → Option (List Json × List Char)
  | 0, _ => none
  | fuel + 1, characters => do
    let (item, afterItem) ← value? fuel characters
    match skipBlanks afterItem with
    | ']' :: after => return ([item], after)
    | ',' :: rest =>
      let (items, after) ← items? fuel rest
      return (item :: items, after)
    | _ => none

def members? : Nat → List Char → Option (List (String × Json) × List Char)
  | 0, _ => none
  | fuel + 1, characters =>
    match skipBlanks characters with
    | '"' :: afterQuote => do
      let (name, afterName) ← stringAfterQuote? afterQuote
      match skipBlanks afterName with
      | ':' :: rest =>
        let (value, afterValue) ← value? fuel rest
        match skipBlanks afterValue with
        | '\x7d' :: after => return ([(name, value)], after)
        | ',' :: others =>
          let (members, after) ← members? fuel others
          return ((name, value) :: members, after)
        | _ => none
      | _ => none
    | _ => none

end

/-- Reads characters that are one JSON value from end to end. -/
def ofCharacters? (characters : List Char) : Option Json :=
  match value? (2 * characters.length + 1) characters with
  | some (value, after) => if (skipBlanks after).isEmpty then some value else none
  | none => none

/-- The encoding of a JSON text.  Its first two characters are of ASCII, so that the zeros among
the first octets show it. -/
def encodingOf : List Nat → Text.Encoding
  | 0 :: 0 :: _ :: _ :: _ => .utf32 .bigEndian
  | 0 :: _ :: _ :: _ :: _ => .utf16 .bigEndian
  | _ :: 0 :: 0 :: 0 :: _ => .utf32 .littleEndian
  | _ :: 0 :: _ :: _ :: _ => .utf16 .littleEndian
  | [0, _] => .utf16 .bigEndian
  | [_, 0] => .utf16 .littleEndian
  | _ => .utf8

def withoutMark : List Char → List Char
  | '\ufeff' :: rest => rest
  | characters => characters

def ofOctets? (octets : List Nat) : Option Json :=
  let encoding := encodingOf octets
  (encoding.characters? octets).bind fun characters =>
    ofCharacters? (if encoding = .utf8 then withoutMark characters else characters)

/-- Reads a text that is sent octet by octet. -/
def ofText? (text : String) : Option Json :=
  ofOctets? (text.toUTF8.toList.map UInt8.toNat)

end RegexAutomata.Json
