import RegexAutomata.Text.Printable
/-!
# Quoted text

How a message shows a piece of text.  The text stands in single quotes, or in double quotes when
it holds a single quote and no double one.  The quote in use and the backslash take a backslash
in front; line feed, carriage return and tabulator have escapes of their own; any other hidden
character is written by its code point in the shortest of three hexadecimal forms.
-/

namespace RegexAutomata.Text

/-- A hexadecimal numeral in lower case, filled up with zeros on the left to a given width. -/
def hexadecimal (width code : Nat) : List Char :=
  let digits := Nat.toDigits 16 code
  List.replicate (width - digits.length) '0' ++ digits

/-- A hidden character by its code point: two, four or eight hexadecimal digits. -/
def codePointEscape (code : Nat) : List Char :=
  if code < 0x100 then '\\' :: 'x' :: hexadecimal 2 code
  else if code < 0x10000 then '\\' :: 'u' :: hexadecimal 4 code
  else '\\' :: 'U' :: hexadecimal 8 code

def quotedCharacter (quote character : Char) : List Char :=
  if character = quote ∨ character = '\\' then ['\\', character]
  else if character = '\n' then ['\\', 'n']
  else if character = '\r' then ['\\', 'r']
  else if character = '\t' then ['\\', 't']
  else if isPrintable character then [character]
  else codePointEscape character.toNat

/-- The single quote, unless the text holds one and no double quote. -/
def quoteFor (characters : List Char) : Char :=
  if '\x27' ∈ characters ∧ '"' ∉ characters then '"' else '\x27'

def quoted (text : String) : String :=
  let quote := quoteFor text.toList
  String.ofList (quote :: text.toList.flatMap (quotedCharacter quote) ++ [quote])

end RegexAutomata.Text
