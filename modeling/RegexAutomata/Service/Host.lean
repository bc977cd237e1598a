import RegexAutomata.Service.Message
import RegexAutomata.Service.Route

/-!
# The web service

What the service answers to a request, and what it is afterwards.  A request on a route is first
counted against the rate of that route, then its body is looked at, and only then does the session
get to work.
-/

namespace RegexAutomata

/-- A running service: its settings, the session, and the counts of requests. -/
structure Host where
  settings : Settings
  session : Session := .fresh
  counters : Rate.Counters Route := []

namespace Host

def conditions (host : Host) (outage : Bool) : Conditions :=
  ⟨host.settings.maxRegexLength, host.settings.maxDfaStates, outage⟩

def perform (host : Host) (outage : Bool) (regex : Json) (task : Task) : Response × Host :=
  let (result, session) := host.session.perform (host.conditions outage) regex.text? task
  (.ofResult result, { host with session })

def currentReport (host : Host) : Response :=
  match host.session.currentReport with
  | none => .nothingYet
  | some result => .ofResult result

def answer (host : Host) (outage : Bool) (route : Route) (request : Request) :
    Response × Host :=
  match route, request.member? "inpRegex" with
  | .test, _ => (.alive, host)
  | .current, _ => (host.currentReport, host)
  | _, none => (.missing "inpRegex", host)
  | .tree, some regex => host.perform outage regex .tree
  | .subset, some regex => host.perform outage regex .subset
  | .direct, some regex => host.perform outage regex .direct
  | .all, some regex => host.perform outage regex .all
  | .input, some regex =>
    match request.member? "inpStr" with
    | none => (.missing "inpStr", host)
    | some text => host.perform outage regex (.input text.text?)

/-- The answer to a request on a route, if the client has not had too many. -/
def grant (host : Host) (outage : Bool) (route : Route) (request : Request) :
    Response × Host :=
  let client := Client.address request.headers request.remote
  let (granted, counters) :=
    Rate.grant (route.allowance host.settings) client route host.counters
  if granted then { host with counters }.answer outage route request
  else (.tooMany, host)

/-- The answer to a request.  The case of the method does not matter for what the request comes
to, only for whether the body of the answer is sent. -/
def handle (host : Host) (outage : Bool) (request : Request) : Response × Host :=
  match Resolution.of request.address.requestedPath (Text.upper request.method)
    request.asksForSocket with
  | .route route =>
    let (response, after) := host.grant outage route request
    (response.forMethod request.method, after)
  | .methods => (.bare 200, host)
  | .redirect => (.bare 308, host)
  | .noSocket => (.bare 400, host)
  | .notFound => (.bare 404, host)
  | .wrongMethod => (.bare 405, host)

end Host
end RegexAutomata
