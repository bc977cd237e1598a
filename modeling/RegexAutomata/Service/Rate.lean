import RegexAutomata.Collection.Table
import RegexAutomata.Text.Blank
import RegexAutomata.Text.Numeral

/-!
# Rates

A rate is a list of limits, each of which admits so many requests of a client in a window of time.
All requests here fall into one window, so a rate comes down to a number of requests; each client
has its own count on each route.
-/

namespace RegexAutomata.Rate

inductive TimeUnit where
  | second
  | minute
  | hour
  | day
  | month
  | year
  deriving DecidableEq, Repr

/-- A limit: so many requests in a window of so many units. -/
structure Limit where
  amount : Nat
  multiple : Nat
  unit : TimeUnit
  deriving DecidableEq, Repr

namespace TimeUnit

def every : List TimeUnit :=
  [second, minute, hour, day, month, year]

def name : TimeUnit → String
  | second => "second"
  | minute => "minute"
  | hour => "hour"
  | day => "day"
  | month => "month"
  | year => "year"

end TimeUnit

def skipBlanks (characters : List Char) : List Char :=
  characters.dropWhile Text.isSeparator

/-- What comes after a word, whatever the case of its letters is. -/
def afterWord? (word : String) (characters : List Char) : Option (List Char) :=
  if (characters.take word.length).map Char.toLower = word.toList then
    some (characters.drop word.length)
  else none

/-- The number in front: at least one digit, and not too many. -/
def number? (characters : List Char) : Option (Nat × List Char) :=
  let digits := characters.takeWhile Char.isDigit
  if digits.isEmpty || Text.mostDigits < digits.length then none
  else some (Text.decimalValue (digits.map fun digit => digit.toNat - '0'.toNat),
    characters.dropWhile Char.isDigit)

/-- The number of units in front.  Without a number, and for zero, it is one. -/
def multiple? (characters : List Char) : Option (Nat × List Char) :=
  if characters.head?.any Char.isDigit then
    (number? characters).map fun found => (max 1 found.1, found.2)
  else some (1, characters)

/-- What comes after the sign or the word between an amount and a window. -/
def afterPer? : List Char → Option (List Char)
  | '/' :: rest => some rest
  | characters => afterWord? "per" characters

def isPlural (letter : Char) : Bool :=
  letter == 's' || letter == 'S' || letter == 'ſ'

/-- The unit in front, in the singular or the plural. -/
def unit? (characters : List Char) : Option (TimeUnit × List Char) := do
  let (unit, after) ← TimeUnit.every.findSome? fun unit =>
    (afterWord? unit.name characters).map fun after => (unit, after)
  return (unit, if after.head?.any isPlural then after.drop 1 else after)

/-- A limit that fills a text: an amount, a sign or word, how many units if not one, and the
unit. -/
def limit? (characters : List Char) : Option Limit := do
  let (amount, afterAmount) ← number? (skipBlanks characters)
  let afterPer ← afterPer? (skipBlanks afterAmount)
  let (multiple, afterMultiple) ← multiple? (skipBlanks afterPer)
  let (unit, after) ← unit? (skipBlanks afterMultiple)
  if (skipBlanks after).isEmpty then return { amount, multiple, unit } else none

def isMark (character : Char) : Bool :=
  character == ',' || character == ';' || character == '|'

/-- The text of a limit that a mark follows may end in a colon. -/
def withoutColon (characters : List Char) : List Char :=
  if characters.getLast? = some ':' then characters.dropLast else characters

/-- The limits that a text lists; one that cannot be read makes the whole text void. -/
def limits? (text : String) : Option (List Limit) :=
  let pieces := text.toList.splitOnP isMark
  (pieces.dropLast.map withoutColon ++ pieces.getLast?.toList).mapM limit?

/-- How many requests a list of limits admits.  The tightest limit decides.  Limits that are equal
share one count, in which a request is counted once for each of them. -/
def allowance (limits : List Limit) : Option Nat :=
  (limits.map fun limit => limit.amount / limits.count limit).min?

/-- How many requests a rate admits: the limits of its own text if that can be read, and otherwise
those of a common text. -/
def allowanceOf (own common : String) : Option Nat :=
  (limits? own <|> limits? common).bind allowance

abbrev Counters (ρ : Type) := Table (String × ρ) Nat

/-- Admits a request, and counts it, if there is room for it.  Without an allowance, and for a
client without a name, there always is. -/
def grant {ρ : Type} [DecidableEq ρ] (allowance : Option Nat) (client : String) (route : ρ)
    (counters : Counters ρ) : Bool × Counters ρ :=
  match allowance with
  | none => (true, counters)
  | some amount =>
    if client.isEmpty then (true, counters)
    else
      let count := (Table.value? (client, route) counters).getD 0
      if count < amount then (true, Table.put counters (client, route) (count + 1))
      else (false, counters)

end RegexAutomata.Rate
