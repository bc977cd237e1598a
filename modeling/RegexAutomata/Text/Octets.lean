/-!
# Characters as octets

Three ways of writing characters as octets, and how they are read.  The two wider ones come with
the most or with the least significant octet first.  Half of a surrogate pair without the other
half stands for the replacement character.
-/

namespace RegexAutomata.Text

/-- Which octet of a unit comes first. -/
inductive ByteOrder where
  | bigEndian
  | littleEndian
  deriving DecidableEq, Repr

/-- How characters are written as octets. -/
inductive Encoding where
  | utf8
  | utf16 (order : ByteOrder)
  | utf32 (order : ByteOrder)
  deriving DecidableEq, Repr

def isHighSurrogate (unit : Nat) : Bool :=
  0xd800 ≤ unit && unit < 0xdc00

def isLowSurrogate (unit : Nat) : Bool :=
  0xdc00 ≤ unit && unit < 0xe000

def surrogatePair (high low : Nat) : Char :=
  Char.ofNat (0x10000 + (high - 0xd800) * 0x400 + (low - 0xdc00))

/-- The character of a unit that stands alone. -/
def single (unit : Nat) : Char :=
  if isHighSurrogate unit || isLowSurrogate unit then '\ufffd' else Char.ofNat unit

/-- Joins surrogate pairs. -/
def charactersOf : List Nat → List Char
  | [] => []
  | [unit] => [single unit]
  | unit :: next :: rest =>
    if isHighSurrogate unit && isLowSurrogate next then
      surrogatePair unit next :: charactersOf rest
    else single unit :: charactersOf (next :: rest)

def ByteOrder.value (order : ByteOrder) (octets : List Nat) : Nat :=
  let ordered := match order with
    | bigEndian => octets
    | littleEndian => octets.reverse
  ordered.foldl (fun value octet => 256 * value + octet) 0

def pairs? (order : ByteOrder) : List Nat → Option (List Nat)
  | [] => some []
  | first :: second :: rest => (pairs? order rest).map (order.value [first, second] :: ·)
  | [_] => none

/-- Numbers of four octets each, none beyond the last code point. -/
def quadruples? (order : ByteOrder) : List Nat → Option (List Nat)
  | [] => some []
  | first :: second :: third :: fourth :: rest =>
    let value := order.value [first, second, third, fourth]
    if value ≤ 0x10ffff then (quadruples? order rest).map (value :: ·) else none
  | _ => none

def Encoding.characters? (encoding : Encoding) (octets : List Nat) : Option (List Char) :=
  match encoding with
  | utf8 =>
    (String.fromUTF8? (octets.map UInt8.ofNat).toByteArray).map String.toList
  | utf16 order => (pairs? order octets).map charactersOf
  | utf32 order => (quadruples? order octets).map (List.map single)

end RegexAutomata.Text
