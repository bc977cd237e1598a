import RegexAutomata.Service.Rate
import RegexAutomata.Service.Settings

/-!
# Routes

Each route of the service is one path and one method; besides the routes there is a folder of
files.  `Resolution.of` says what becomes of any path and method.
-/

namespace RegexAutomata

inductive Route where
  | test
  | tree
  | subset
  | direct
  | all
  | input
  | current
  deriving DecidableEq, Repr

namespace Route

def every : List Route :=
  [test, tree, subset, direct, all, input, current]

def path : Route → String
  | test => "/api/test"
  | tree => "/api/Regex_to_AST"
  | subset => "/api/Regex_to_DFA"
  | direct => "/api/Regex_to_DirectDFA"
  | all => "/api/Regex_to_DFAM"
  | input => "/api/Regex_AnalyseInp"
  | current => "/api/Regex_current"

/-- The route only reads and is fetched; all else is posted. -/
def isFetched : Route → Bool
  | test | current => true
  | _ => false

/-- A method that fetches, the whole or its head only. -/
def isFetch (method : String) : Bool :=
  method == "GET" || method == "HEAD"

def takes (route : Route) (method : String) : Bool :=
  if route.isFetched then isFetch method else method == "POST"

def ofPath? (path : String) : Option Route :=
  every.find? fun route => route.path = path

def allowance (settings : Settings) (route : Route) : Option Nat :=
  if settings.rateLimited then
    Rate.allowanceOf (if route = test then settings.testRate else settings.regexRate)
      settings.defaultRate
  else none

theorem mem_every (route : Route) : route ∈ every := by
  cases route <;> decide

/-- Different routes have different paths, so each route is found by its path. -/
theorem ofPath?_path (route : Route) : ofPath? route.path = some route := by
  cases route <;> decide

end Route

inductive Endpoint where
  | route (route : Route)
  /-- A file to fetch.  The folder of files is empty. -/
  | file
  deriving DecidableEq, Repr

namespace Endpoint

/-- A path below the folder of files: one character that is no slash, and after it anything within
the line. -/
def isFilePath (path : List Char) : Bool :=
  let folder := "/static/".toList
  folder.isPrefixOf path &&
    match path.drop folder.length with
    | first :: rest => first ≠ '/' && !rest.contains '\n'
    | [] => false

def ofPath? (path : List Char) : Option Endpoint :=
  match Route.ofPath? (String.ofList path) with
  | some found => some (route found)
  | none => if isFilePath path then some file else none

/-- Anything takes its own methods, and tells which these are. -/
def takes (endpoint : Endpoint) (method : String) : Bool :=
  method == "OPTIONS" ||
    match endpoint with
    | route found => found.takes method
    | file => Route.isFetch method

end Endpoint

/-- What becomes of a request by its path and method. -/
inductive Resolution where
  /-- It takes a route. -/
  | route (route : Route)
  /-- It only asks which methods the path takes. -/
  | methods
  /-- It is sent to the path with single slashes. -/
  | redirect
  /-- The path is known, but not for this method. -/
  | wrongMethod
  /-- The path and the method are known, but not for a two-way connection. -/
  | noSocket
  /-- Nothing is there. -/
  | notFound
  deriving DecidableEq, Repr

namespace Resolution

/-- Makes one slash of each row of slashes. -/
def singleSlashes : List Char → List Char
  | '/' :: '/' :: rest => singleSlashes ('/' :: rest)
  | character :: rest => character :: singleSlashes rest
  | [] => []

/-- What a plain request comes to, of a method that the endpoint takes. -/
def served (method : String) : Endpoint → Resolution
  | .route found => if method = "OPTIONS" then methods else route found
  | .file => if method = "OPTIONS" then methods else notFound

/-- An endpoint turns away other methods first, and two-way connections next. -/
def guarded (endpoint : Endpoint) (method : String) (socket : Bool) (outcome : Resolution) :
    Resolution :=
  if !endpoint.takes method then wrongMethod else if socket then noSocket else outcome

/-- A path is looked up as it stands and then with single slashes. -/
def of (path : List Char) (method : String) (socket : Bool) : Resolution :=
  match Endpoint.ofPath? path, Endpoint.ofPath? (singleSlashes path) with
  | some endpoint, _ => guarded endpoint method socket (served method endpoint)
  | none, some endpoint => guarded endpoint method socket redirect
  | none, none => notFound

end Resolution
end RegexAutomata
