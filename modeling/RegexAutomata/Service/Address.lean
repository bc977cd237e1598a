import RegexAutomata.Text.Numeral

/-!
# Addresses of requests

An address may name a scheme and a host before its path.  What is left without them is an address
once more, and is taken apart again; only what stands in front of the path the third time belongs
to it.  Escapes in the path stand for octets.
-/

namespace RegexAutomata

/-- An address in its parts, without what follows a question mark or a number sign.  Scheme and
host are in lower case, and either may be empty. -/
structure Address where
  scheme : List Char
  host : List Char
  path : List Char
  deriving DecidableEq, Repr

namespace Address

/-- Blanks and control characters of ASCII.  They are left out in front of an address. -/
def isLeading (character : Char) : Bool :=
  character.toNat ≤ 0x20

/-- Tabs and the ends of lines.  They are left out wherever they stand. -/
def isIgnored (character : Char) : Bool :=
  character == '\t' || character == '\n' || character == '\r'

def isSchemeCharacter (character : Char) : Bool :=
  character.isAlphanum || character == '+' || character == '-' || character == '.'

def isScheme (characters : List Char) : Bool :=
  characters.head?.any Char.isAlpha && characters.all isSchemeCharacter

/-- The scheme in front of the first colon, if there is one, and what comes after it. -/
def splitScheme (characters : List Char) : List Char × List Char :=
  let front := characters.takeWhile fun character => character ≠ ':'
  match characters.dropWhile fun character => character ≠ ':' with
  | ':' :: rest => if isScheme front then (front.map Char.toLower, rest) else ([], characters)
  | _ => ([], characters)

/-- The host ends where a path, a query or a fragment starts. -/
def isHostCharacter (character : Char) : Bool :=
  character ≠ '/' && character ≠ '?' && character ≠ '#'

/-- The host after two slashes, if there are any, and what comes after it. -/
def splitHost : List Char → List Char × List Char
  | '/' :: '/' :: rest =>
    ((rest.takeWhile isHostCharacter).map Char.toLower, rest.dropWhile isHostCharacter)
  | characters => ([], characters)

def ofCharacters (characters : List Char) : Address :=
  let relevant := (characters.dropWhile isLeading).filter fun character => !isIgnored character
  let (scheme, afterScheme) := splitScheme relevant
  let (host, afterHost) := splitHost afterScheme
  { scheme, host
    path := afterHost.takeWhile fun character => character ≠ '?' ∧ character ≠ '#' }

def characters (address : Address) : List Char :=
  (if address.scheme.isEmpty then [] else address.scheme ++ [':']) ++
    (if address.host.isEmpty then [] else '/' :: '/' :: address.host) ++ address.path

/-- The character of an octet.  One beyond ASCII is part of a character that no known path has, so
that any such character will do. -/
def ofOctet (octet : Nat) : Char :=
  if octet < 0x80 then Char.ofNat octet else '\ufffd'

/-- Replaces each percent sign with two hexadecimal digits after it by what it stands for. -/
def unescaped : List Char → List Char
  | '%' :: first :: second :: rest =>
    match Text.hexDigitValue? first, Text.hexDigitValue? second with
    | some high, some low => ofOctet (16 * high + low) :: unescaped rest
    | _, _ => '%' :: unescaped (first :: second :: rest)
  | character :: rest => character :: unescaped rest
  | [] => []

/-- One slash in front, in place of none or of several. -/
def withSlash (characters : List Char) : List Char :=
  '/' :: characters.dropWhile fun character => character = '/'

def requestedPath (address : Address) : List Char :=
  withSlash (unescaped (ofCharacters (ofCharacters address.path).path).characters)

def asksForSocket (address : Address) : Bool :=
  address.scheme = "ws".toList || address.scheme = "wss".toList

end Address
end RegexAutomata
