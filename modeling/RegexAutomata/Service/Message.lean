import RegexAutomata.Json.Reader
import RegexAutomata.Service.Address
import RegexAutomata.Service.Client
import RegexAutomata.Service.Session

/-!
# Requests and answers

A request may carry a JSON value in its body; an answer is a status and, mostly, a JSON value with
a code of its own: zero for success, one for input at fault, and the status for all else.
-/

namespace RegexAutomata

inductive Body where
  | absent
  /-- A value that is sent as JSON. -/
  | json (value : Json)
  /-- A text, with the content type that is given for it, if one is. -/
  | text (content : String) (contentType : Option String)
  deriving Repr

structure Request where
  /-- The address that it is sent to. -/
  target : String
  method : String := "POST"
  headers : Headers := []
  body : Body := .absent
  /-- The address of the connection. -/
  remote : String := "127.0.0.1"
  deriving Repr

namespace Request

/-- The request as it is sent, if its headers can be; a content type that is given with the body is
sent as one of them. -/
def checked (request : Request) : Except HeaderError Request := do
  let given : Headers := match request.body with
    | .text _ (some contentType) => [("Content-Type", contentType)]
    | _ => []
  let _ ← Headers.checked (request.headers ++ given)
  return request

def address (request : Request) : Address :=
  Address.ofCharacters request.target.toList

/-- The request asks for a two-way connection, by its address or by its headers. -/
def asksForSocket (request : Request) : Bool :=
  request.address.asksForSocket || request.headers.askForSocket

/-- The content type: what is given with the body, or else in a header.  A value that is sent as
JSON needs neither. -/
def contentType (request : Request) : String :=
  let declared := request.headers.first? "Content-Type"
  match request.body with
  | .absent => declared.getD ""
  | .json _ => declared.getD "application/json"
  | .text _ given => (given <|> declared).getD ""

/-- The blanks that may stand around the parts of a content type. -/
def isPadding (character : Char) : Bool :=
  character == ' ' || character == '\t'

/-- The media type: what stands before the parameters of the content type, in lower case. -/
def mediaType (request : Request) : String :=
  let bare := request.contentType.toList.takeWhile fun character => character ≠ ';'
  String.ofList ((Text.trimmed isPadding bare).map Char.toLower)

/-- The media type promises JSON. -/
def promisesJson (request : Request) : Bool :=
  request.mediaType == "application/json" ||
    (request.mediaType.startsWith "application/" && request.mediaType.endsWith "+json")

/-- The body comes in chunks; its length is not known then, and nothing of it is read. -/
def isChunked (request : Request) : Bool :=
  request.headers.value? "Transfer-Encoding" == some "chunked"

/-- The value in the body.  A body that promises no JSON, or is none, or comes in chunks, holds
nothing.  A body is taken to be no deeper than its reader can follow: arrays and objects may stand
within each other to any depth. -/
def value? (request : Request) : Option Json :=
  if request.promisesJson && !request.isChunked then
    match request.body with
    | .absent => none
    | .json value => some value
    | .text content _ => Json.ofText? content
  else none

/-- A member of the object in the body, unless it is missing or null. -/
def member? (request : Request) (name : String) : Option Json :=
  request.value?.bind fun value => value.member? name

end Request

structure Response where
  status : Nat
  body : Option Json
  deriving Repr

namespace Response

def bare (status : Nat) : Response :=
  ⟨status, none⟩

def withMessage (status : Nat) (message : String) : Response :=
  ⟨status, some (.object [("code", .natural status), ("msg", .string message)])⟩

def missing (name : String) : Response :=
  withMessage 400 ("缺少必填字段: " ++ name)

def tooMany : Response :=
  withMessage 429 "请求过于频繁，请稍后再试"

def outOfOrder : Response :=
  withMessage 500 Failure.outage.message

def data (value : Json) : Response :=
  ⟨200, some (.object [("code", .natural 0), ("data", value)])⟩

def rejected (diagnostic : Diagnostic) : Response :=
  ⟨200, some (.object [("code", .natural 1), ("message", .string diagnostic.message),
    ("position", .optional (diagnostic.position.map .integer))])⟩

def alive : Response :=
  ⟨200, some (.object [("code", .natural 0), ("msg", .string "test success!")])⟩

/-- There is no current analysis. -/
def nothingYet : Response :=
  ⟨200, some (.object [("code", .natural 1), ("message", .string "还没有提交过正则表达式")])⟩

def ofResult : Except Refusal Json → Response
  | .ok value => data value
  | .error (.rejected diagnostic) => rejected diagnostic
  | .error .breakdown => outOfOrder

/-- The answer without its body, if only its head is asked for: the method is then spelled with
capital letters.  Any other spelling finds the same route, but the whole answer is sent. -/
def forMethod (response : Response) (method : String) : Response :=
  if method = "HEAD" then bare response.status else response

end Response
end RegexAutomata
