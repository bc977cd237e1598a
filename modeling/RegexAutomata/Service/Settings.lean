import RegexAutomata.Json.Basic
import RegexAutomata.Text.Numeral
import RegexAutomata.Text.Quoted

/-!
# Settings

The settings of the service, their defaults, and how environment variables and the choice of a
profile change them.
-/

namespace RegexAutomata

abbrev Environment := List (String × String)

inductive SettingsError where
  /-- A number is not written as one. -/
  | notANumber (text : String)
  /-- A number has too many digits. -/
  | tooManyDigits (count : Nat)
  /-- There is no profile of this name. -/
  | unknownProfile (name : String)
  deriving DecidableEq, Repr

/-- The words for an error.  Of a text that is no number, quoted, at most 200 characters are
shown. -/
def SettingsError.message : SettingsError → String
  | notANumber text =>
    "invalid literal for int() with base 10: " ++
      String.ofList ((Text.quoted text).toList.take 200)
  | tooManyDigits count =>
    "Exceeds the limit (" ++ toString Text.mostDigits ++
      " digits) for integer string conversion: value has " ++ toString count ++
      " digits; use sys.set_int_max_str_digits() to increase the limit"
  | unknownProfile name => Text.quoted name

structure Settings where
  /-- Requests are counted and limited. -/
  rateLimited : Bool := true
  defaultRate : String := "2000 per day;500 per hour"
  rateStorage : String := "memory://"
  rateStrategy : String := "fixed-window"
  rateHeaders : Bool := true
  /-- The rate for each route but the test. -/
  regexRate : String := "3000/minute"
  /-- The rate for the test. -/
  testRate : String := "3/minute"
  maxRegexLength : Option Int := some 200
  maxDfaStates : Option Int := some 5000
  logLevel : String := "INFO"
  debug : Bool := false
  testing : Bool := false
  deriving DecidableEq, Repr

namespace Settings

/-- A switch is on if it is spelled as one of four words; case and blanks around it do not
matter. -/
def isOn (text : String) : Bool :=
  let word := String.ofList ((Text.trimmed Text.isSeparator text.toList).map Char.toLower)
  ["1", "true", "yes", "on"].contains word

def textFrom (environment : Environment) (name default : String) : String :=
  (environment.lookup name).getD default

/-- The number in a variable, or a default. -/
def numberFrom (environment : Environment) (name : String) (default : Int) :
    Except SettingsError Int :=
  match environment.lookup name with
  | none => .ok default
  | some text =>
    match Text.integer? text with
    | .ok value => .ok value
    | .error .malformed => .error (.notANumber text)
    | .error (.tooManyDigits count) => .error (.tooManyDigits count)

/-- The settings before a profile is chosen. -/
def ofEnvironment (environment : Environment) : Except SettingsError Settings := do
  let base : Settings := {}
  let maxRegexLength ← numberFrom environment "MAX_REGEX_LENGTH" 200
  let maxDfaStates ← numberFrom environment "MAX_DFA_STATES" 5000
  return {
    rateLimited := (environment.lookup "RATELIMIT_ENABLED").elim true isOn
    defaultRate := textFrom environment "RATELIMIT_DEFAULT" base.defaultRate
    rateStorage := textFrom environment "RATELIMIT_STORAGE_URI" base.rateStorage
    rateStrategy := textFrom environment "RATELIMIT_STRATEGY" base.rateStrategy
    regexRate := textFrom environment "REGEX_RATE_LIMIT" base.regexRate
    testRate := textFrom environment "TEST_RATE_LIMIT" base.testRate
    maxRegexLength := some maxRegexLength
    maxDfaStates := some maxDfaStates
    logLevel := textFrom environment "LOG_LEVEL" base.logLevel }

/-- The settings of a profile.  Numbers are read before the name of the profile is looked at. -/
def load (environment : Environment) (profile : String) : Except SettingsError Settings := do
  let base ← ofEnvironment environment
  match profile with
  | "dev" =>
    return { base with debug := true, logLevel := textFrom environment "LOG_LEVEL" "DEBUG" }
  | "test" =>
    return { base with
      testing := true, rateLimited := false, maxRegexLength := some 50, maxDfaStates := some 64 }
  | "prod" => return base
  | _ => throw (.unknownProfile profile)

def toJson (settings : Settings) : Json :=
  .object [("RATELIMIT_ENABLED", .bool settings.rateLimited),
    ("RATELIMIT_DEFAULT", .string settings.defaultRate),
    ("RATELIMIT_STORAGE_URI", .string settings.rateStorage),
    ("RATELIMIT_STRATEGY", .string settings.rateStrategy),
    ("RATELIMIT_HEADERS_ENABLED", .bool settings.rateHeaders),
    ("REGEX_RATE_LIMIT", .string settings.regexRate),
    ("TEST_RATE_LIMIT", .string settings.testRate),
    ("MAX_REGEX_LENGTH", .optional (settings.maxRegexLength.map .integer)),
    ("MAX_DFA_STATES", .optional (settings.maxDfaStates.map .integer)),
    ("LOG_LEVEL", .string settings.logLevel),
    ("DEBUG", .bool settings.debug),
    ("TESTING", .bool settings.testing)]

/-- A limit given by a value; null lifts it. -/
def limitOf (value : Json) (known : Option Int) : Option Int :=
  match value with
  | .integer limit => some limit
  | .null => none
  | _ => known

/-- Replaces one of the settings that requests depend on.  A rate that is no text is as good as an
empty one. -/
def replace (settings : Settings) (name : String) (value : Json) : Settings :=
  match name with
  | "MAX_REGEX_LENGTH" =>
    { settings with maxRegexLength := limitOf value settings.maxRegexLength }
  | "MAX_DFA_STATES" => { settings with maxDfaStates := limitOf value settings.maxDfaStates }
  | "REGEX_RATE_LIMIT" => { settings with regexRate := value.text?.getD "" }
  | "TEST_RATE_LIMIT" => { settings with testRate := value.text?.getD "" }
  | _ => settings

end Settings
end RegexAutomata
