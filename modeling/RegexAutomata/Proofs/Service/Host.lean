import RegexAutomata.Proofs.Service.Task
import RegexAutomata.Service.Host

/-!
# What the service answers

As long as requests are not limited and nothing is out of order, whatever is posted on a route has
an answer of one of three kinds, which its body alone decides: a member is missing, or the input is
at fault, or all is well.
-/

namespace RegexAutomata

namespace Route

variable {settings : Settings} {route : Route}

def required : Route → List String
  | input => ["inpRegex", "inpStr"]
  | _ => ["inpRegex"]

def task (request : Request) : Route → Task
  | subset => .subset
  | direct => .direct
  | all => .all
  | input => .input ((request.member? "inpStr").bind Json.text?)
  | _ => .tree

theorem allowance_of_unlimited (hrate : settings.rateLimited = false) (route : Route) :
    route.allowance settings = none := by
  rw [allowance, if_neg (by rw [hrate]; exact Bool.false_ne_true)]

end Route

namespace Resolution

variable {route : Route} {method : String}

theorem served_eq_route {endpoint : Endpoint} (hserved : served method endpoint = .route route) :
    endpoint = .route route ∧ method ≠ "OPTIONS" := by
  cases endpoint <;> rw [served] at hserved <;> split at hserved <;> cases hserved
  next hmethod => exact ⟨rfl, hmethod⟩

theorem guarded_eq_route {endpoint : Endpoint} {socket : Bool} {outcome : Resolution}
    (hguarded : guarded endpoint method socket outcome = .route route) :
    endpoint.takes method ∧ outcome = .route route := by
  rw [guarded] at hguarded
  split at hguarded
  · cases hguarded
  · next htakes =>
    split at hguarded
    · cases hguarded
    · exact ⟨by simpa using htakes, hguarded⟩

/-- What comes to a route is of a method that the route takes. -/
theorem takes_of_eq_route {path : List Char} {socket : Bool}
    (hroute : Resolution.of path method socket = .route route) : route.takes method := by
  rw [Resolution.of] at hroute
  split at hroute
  · obtain ⟨htakes, hserved⟩ := guarded_eq_route hroute
    obtain ⟨rfl, hmethod⟩ := served_eq_route hserved
    simpa [Endpoint.takes, hmethod] using htakes
  · cases (guarded_eq_route hroute).2
  · cases hroute

/-- What is posted is not asked for its head only. -/
theorem ne_head_of_eq_route {path : List Char} {socket : Bool}
    (hroute : Resolution.of path (Text.upper method) socket = .route route)
    (hposted : route.isFetched = false) : method ≠ "HEAD" := by
  rintro rfl
  have htakes := takes_of_eq_route hroute
  rw [Route.takes, hposted, if_neg Bool.false_ne_true] at htakes
  exact absurd htakes (by decide +kernel)

end Resolution

namespace Request

/-- The input of a request is in order: the regular expression is a text that is not too long and
can be read, its automata are not too large where they are asked for, and what they are to run on is
a text. -/
structure InOrder (request : Request) (route : Route) (maxLength maxStates : Int) : Prop where
  regex : ∃ text tree, request.member? "inpRegex" = some (.string text) ∧
    (text.length : Int) ≤ maxLength ∧ Regex.parse text = .ok tree ∧
    (route ≠ .tree → ∃ made, Analysis.build {} text = .ok made ∧
      (made.dfa.states.size : Int) ≤ maxStates ∧ (made.directDfa.states.size : Int) ≤ maxStates)
  input : route = .input → ∃ text, request.member? "inpStr" = some (.string text)

def posted (route : Route) (body : Body) : Request :=
  { target := route.path, body }

theorem resolution_posted {route : Route} (hposted : route.isFetched = false) (body : Body) :
    Resolution.of (posted route body).address.requestedPath (Text.upper (posted route body).method)
      (posted route body).asksForSocket = .route route := by
  -- the body has no part in it
  suffices hempty : Resolution.of (posted route .absent).address.requestedPath
      (Text.upper (posted route .absent).method) (posted route .absent).asksForSocket =
        .route route from hempty
  cases route with
  | test => cases hposted
  | current => cases hposted
  | _ => decide +kernel

/-- What is posted as JSON is read as it is. -/
theorem value?_posted (route : Route) (value : Json) :
    (posted route (.json value)).value? = some value := by
  have hcontent : (posted route (.json value)).contentType = "application/json" := rfl
  have hheaders : (posted route (.json value)).headers = [] := rfl
  have hpromises : (posted route (.json value)).promisesJson = true := by
    rw [promisesJson, mediaType, hcontent]
    decide +kernel
  have hchunked : (posted route (.json value)).isChunked = false := by
    rw [isChunked, hheaders]
    decide +kernel
  rw [value?, hpromises, hchunked]
  rfl

theorem member?_posted (route : Route) (value : Json) (name : String) :
    (posted route (.json value)).member? name = value.member? name := by
  rw [member?, value?_posted, Option.bind_some]

end Request

namespace Response

def code? (response : Response) : Option Json :=
  response.body.bind fun body => body.member? "code"

theorem forMethod_of_ne {method : String} (hmethod : method ≠ "HEAD") (response : Response) :
    response.forMethod method = response :=
  if_neg hmethod

end Response

namespace Host

variable {host : Host} {outage : Bool} {route : Route} {request : Request}

/-- A service in order: what the session keeps was made, and is within the limit. -/
structure Orderly (host : Host) : Prop where
  faithful : host.session.Faithful
  within : host.session.Within (host.conditions false)

def replay (host : Host) (history : List (Bool × Request)) : Host :=
  history.foldl (fun host exchange => (host.handle exchange.1 exchange.2).2) host

theorem handle_of_route
    (hroute : Resolution.of request.address.requestedPath (Text.upper request.method)
      request.asksForSocket = .route route) :
    host.handle outage request = ((host.grant outage route request).1.forMethod request.method,
      (host.grant outage route request).2) := by
  unfold handle
  simp only [hroute]

/-- A request that is let through only fetches, or misses a member, or has a task carried out. -/
theorem answer_cases (host : Host) (outage : Bool) (route : Route) (request : Request) :
    (route.isFetched ∧ (host.answer outage route request).2 = host) ∨
      (∃ name ∈ route.required, request.member? name = none ∧
        host.answer outage route request = (.missing name, host)) ∨
      ∃ regex, request.member? "inpRegex" = some regex ∧
        (∀ name ∈ route.required, request.member? name ≠ none) ∧
        host.answer outage route request = host.perform outage regex (route.task request) := by
  unfold answer
  cases hregex : request.member? "inpRegex" with
  | none =>
    cases route with
    | test => exact Or.inl ⟨rfl, rfl⟩
    | current => exact Or.inl ⟨rfl, rfl⟩
    | _ => exact Or.inr (Or.inl ⟨"inpRegex", List.mem_cons_self .., hregex, rfl⟩)
  | some regex =>
    cases route with
    | test => exact Or.inl ⟨rfl, rfl⟩
    | current => exact Or.inl ⟨rfl, rfl⟩
    | input =>
      refine Or.inr ?_
      cases htext : request.member? "inpStr" with
      | none => exact Or.inl ⟨"inpStr", by simp [Route.required], htext, rfl⟩
      | some text =>
        refine Or.inr ⟨regex, rfl, by simp [Route.required, hregex, htext], ?_⟩
        simp only [Route.task, htext, Option.bind_some]
    | _ => exact Or.inr (Or.inr ⟨regex, rfl, by simp [Route.required, hregex], rfl⟩)

section Steps

/-- What a request leaves: the settings stay, and the session has carried out a task, if it was
asked to. -/
def Follows (outage : Bool) (host after : Host) : Prop :=
  after.settings = host.settings ∧ (after.session = host.session ∨
    ∃ regex task, after.session = (host.session.perform (host.conditions outage) regex task).2)

theorem follows_answer : host.Follows outage (host.answer outage route request).2 := by
  rcases host.answer_cases outage route request with ⟨-, hsame⟩ | ⟨name, -, -, hequal⟩ |
    ⟨regex, -, -, hequal⟩
  · exact ⟨by rw [hsame], Or.inl (by rw [hsame])⟩
  · exact ⟨by rw [hequal], Or.inl (by rw [hequal])⟩
  · rw [hequal]
    exact ⟨rfl, Or.inr ⟨regex.text?, route.task request, rfl⟩⟩

theorem follows_grant : host.Follows outage (host.grant outage route request).2 := by
  simp only [grant]
  split
  · exact follows_answer
  · exact ⟨rfl, Or.inl rfl⟩

theorem follows_handle : host.Follows outage (host.handle outage request).2 := by
  cases hresolution : Resolution.of request.address.requestedPath (Text.upper request.method)
    request.asksForSocket with
  | route route =>
    rw [handle_of_route hresolution]
    exact follows_grant
  | _ =>
    unfold handle
    simp only [hresolution]
    exact ⟨rfl, Or.inl rfl⟩

/-- A service stays in order. -/
theorem Orderly.follows {after : Host} (horderly : host.Orderly)
    (hfollows : host.Follows outage after) : after.Orderly := by
  obtain ⟨hsettings, hsession⟩ := hfollows
  have hconditions : after.conditions false = host.conditions false := by
    rw [conditions, conditions, hsettings]
  obtain hsame | ⟨regex, task, hperform⟩ := hsession
  · refine ⟨?_, ?_⟩
    · rw [hsame]
      exact horderly.faithful
    · rw [hsame, hconditions]
      exact horderly.within
  · have hobey : after.session =
        (host.session.obey (host.conditions outage) (.perform regex task)).2 := hperform
    refine ⟨?_, ?_⟩
    · rw [hobey]
      exact horderly.faithful.obey _ _
    · rw [hobey, hconditions]
      -- an outage is no matter of size
      have hwithin : host.session.Within (host.conditions outage) := horderly.within
      exact hwithin.obey _

theorem orderly_start (settings : Settings) : Orderly { settings } where
  faithful := Session.faithful_fresh
  within := Session.within_fresh _

theorem replay_cons (exchange : Bool × Request) (history : List (Bool × Request)) :
    host.replay (exchange :: history) = (host.handle exchange.1 exchange.2).2.replay history := by
  unfold replay
  exact List.foldl_cons ..

theorem settings_replay (history : List (Bool × Request)) :
    (host.replay history).settings = host.settings := by
  induction history generalizing host with
  | nil => rfl
  | cons exchange rest ih => rw [replay_cons, ih, follows_handle.1]

theorem Orderly.replay (horderly : host.Orderly) (history : List (Bool × Request)) :
    (host.replay history).Orderly := by
  induction history generalizing host with
  | nil => exact horderly
  | cons exchange rest ih =>
    rw [replay_cons]
    exact ih (horderly.follows follows_handle)

end Steps

section Posted

variable {maxLength maxStates : Int}

/-- Without rates every request is let through. -/
theorem grant_of_unlimited (hrate : host.settings.rateLimited = false) :
    host.grant outage route request = host.answer outage route request := by
  unfold grant
  rw [Route.allowance_of_unlimited hrate]
  simp only [Rate.grant, if_true]

theorem text?_eq_some_iff {value : Json} {text : String} :
    value.text? = some text ↔ value = .string text := by
  cases value <;> simp [Json.text?]

/-- The task for a request can be carried out exactly if the input is in order. -/
theorem feasible_iff_inOrder (hposted : route.isFetched = false) {regex : Json}
    (hregex : request.member? "inpRegex" = some regex) :
    Session.Feasible ⟨some maxLength, some maxStates, false⟩ regex.text? (route.task request) ↔
      request.InOrder route maxLength maxStates := by
  have htree : route.task request = .tree ↔ route = .tree := by
    cases route with
    | test => cases hposted
    | current => cases hposted
    | _ => simp [Route.task]
  have hinput : route.task request ≠ .input none ↔
      (route = .input → ∃ text, request.member? "inpStr" = some (.string text)) := by
    cases route with
    | input =>
      rw [Route.task, Ne, Task.input.injEq, ← Ne, Option.ne_none_iff_exists']
      simp only [Option.bind_eq_some_iff, text?_eq_some_iff, exists_eq_right, true_imp_iff]
    | _ => simp [Route.task]
  constructor
  · rintro ⟨text, made, hchecked, hmade, hfits, hgiven⟩
    obtain ⟨htext, hlength⟩ := Session.checked_eq_ok_iff.1 hchecked
    obtain rfl := text?_eq_some_iff.1 htext
    exact ⟨⟨text, made.tree, hregex, hlength maxLength rfl, (Analysis.build_eq_ok hmade).2.1,
      fun hroute => ⟨made, hmade, hfits (htree.not.2 hroute) maxStates rfl⟩⟩, hinput.1 hgiven⟩
  · rintro ⟨⟨text, tree, hmember, hlength, hparse, hsizes⟩, hgiven⟩
    obtain rfl := Option.some.inj (hregex.symm.trans hmember)
    obtain ⟨made, hmade⟩ := Analysis.exists_build_eq_ok hparse
    refine ⟨text, made, Session.checked_eq_ok_iff.2 ⟨rfl, ?_⟩, hmade, fun hroute => ?_,
      hinput.2 hgiven⟩
    · rintro _ ⟨⟩
      exact hlength
    · rintro _ ⟨⟩
      obtain ⟨other, hother, hwithin⟩ := hsizes (htree.not.1 hroute)
      rwa [Except.ok.inj (hmade.symm.trans hother)]

/-- A task that is carried out has an answer, whose code says whether the input is in order. -/
theorem Orderly.perform_exact (horderly : host.Orderly) (regex : Json) (task : Task) :
    (host.perform false regex task).1.status = 200 ∧
      (Session.Feasible (host.conditions false) regex.text? task →
        (host.perform false regex task).1.code? = some (.natural 0)) ∧
      (¬ Session.Feasible (host.conditions false) regex.text? task →
        (host.perform false regex task).1.code? = some (.natural 1)) := by
  have hresponse : (host.perform false regex task).1 =
      .ofResult (host.session.perform (host.conditions false) regex.text? task).1 := rfl
  obtain ⟨hgood, hbad⟩ :=
    Session.judges_perform horderly.faithful horderly.within rfl regex.text? task
  by_cases hfeasible : Session.Feasible (host.conditions false) regex.text? task
  · obtain ⟨data, hdata⟩ := hgood hfeasible
    rw [hresponse, hdata]
    exact ⟨rfl, fun _ => rfl, fun hnever => absurd hfeasible hnever⟩
  · obtain ⟨diagnostic, hrejected⟩ := hbad hfeasible
    rw [hresponse, hrejected]
    exact ⟨rfl, fun hnever => absurd hnever hfeasible, fun _ => rfl⟩

/-- Whatever was requested before, and whether or not there were outages then, a request that comes
to a route to post on is answered with a status of 400 if its body misses a member.  Otherwise the
status is 200, and the code is zero or one, as the input is in order or not. -/
theorem handle_exact (settings : Settings) (hlength : settings.maxRegexLength = some maxLength)
    (hstates : settings.maxDfaStates = some maxStates) (hrate : settings.rateLimited = false)
    (history : List (Bool × Request)) (request : Request) (route : Route)
    (hroute : Resolution.of request.address.requestedPath (Text.upper request.method)
      request.asksForSocket = .route route)
    (hposted : route.isFetched = false) :
    ∃ response after, (replay { settings } history).handle false request = (response, after) ∧
      ((∃ name ∈ route.required, request.member? name = none) → response.status = 400) ∧
      ((∀ name ∈ route.required, request.member? name ≠ none) →
        response.status = 200 ∧
          (request.InOrder route maxLength maxStates → response.code? = some (.natural 0)) ∧
          (¬ request.InOrder route maxLength maxStates → response.code? = some (.natural 1))) := by
  obtain ⟨host, hhost⟩ : ∃ host, replay { settings } history = host := ⟨_, rfl⟩
  have horderly : host.Orderly := hhost ▸ (orderly_start settings).replay history
  have hsettings : host.settings = settings := hhost ▸ settings_replay history
  rw [hhost, handle_of_route hroute, grant_of_unlimited (hsettings ▸ hrate),
    Response.forMethod_of_ne (Resolution.ne_head_of_eq_route hroute hposted)]
  refine ⟨_, _, rfl, ?_⟩
  rcases host.answer_cases false route request with ⟨hfetched, -⟩ | ⟨name, hname, hnone, hequal⟩ |
    ⟨regex, hregex, hall, hequal⟩
  · cases hfetched.symm.trans hposted
  · rw [hequal]
    exact ⟨fun _ => rfl, fun hall => absurd hnone (hall name hname)⟩
  · rw [hequal]
    have hconditions : host.conditions false = ⟨some maxLength, some maxStates, false⟩ := by
      rw [conditions, hsettings, hlength, hstates]
    obtain ⟨hstatus, hgood, hbad⟩ := horderly.perform_exact regex (route.task request)
    rw [hconditions, feasible_iff_inOrder hposted hregex] at hgood hbad
    exact ⟨fun ⟨name, hname, hnone⟩ => absurd hnone (hall name hname),
      fun _ => ⟨hstatus, hgood, hbad⟩⟩

def patient : Settings :=
  { rateLimited := false, maxRegexLength := some 50, maxDfaStates := some 3 }

/-- A service that has analysed a regular expression, failed in an outage, and found another one
malformed. -/
def troubled : List (Bool × Request) :=
  [(false, .posted .all (.json (.object [("inpRegex", .string "ab")]))),
    (true, .posted .subset (.json (.object [("inpRegex", .string "a*")]))),
    (false, .posted .tree (.json (.object [("inpRegex", .string "a(")])))]

def question (regex text : Json) : Request :=
  .posted .input (.json (.object [("inpRegex", regex), ("inpStr", text)]))

theorem inOrder_question : (question (.string "ab") (.string "a")).InOrder .input 50 3 := by
  obtain ⟨made, hmade⟩ := @Analysis.exists_build_eq_ok "ab" (.concat (.char "a") (.char "b")) rfl
  have hsizes : (Analysis.build {} "ab").toOption.map
      (fun made => (made.dfa.states.size, made.directDfa.states.size)) = some (3, 3) := by
    decide +kernel
  rw [hmade] at hsizes
  obtain ⟨hsubset, hdirect⟩ := Prod.mk.inj (Option.some.inj hsizes)
  exact ⟨⟨"ab", _, rfl, by decide, rfl, fun _ => ⟨made, hmade, by omega, by omega⟩⟩,
    fun _ => ⟨"a", rfl⟩⟩

theorem has_required (regex text : String) :
    ∀ name ∈ Route.input.required,
      (question (.string regex) (.string text)).member? name ≠ none := by
  simp [Route.required, question, Request.member?_posted, Json.member?, Json.members]

theorem not_inOrder_question : ¬ (question (.string "a(") (.string "a")).InOrder .input 50 3 := by
  rintro ⟨⟨text, tree, hmember, -, hparse, -⟩, -⟩
  obtain rfl : "a(" = text := Json.string.inj (Option.some.inj hmember)
  cases hparse

theorem handle_exact_troubled :
    (∃ response after,
        (replay { settings := patient } troubled).handle false
            (question (.string "ab") (.string "a")) = (response, after) ∧
          response.status = 200 ∧ response.code? = some (.natural 0)) ∧
      (∃ response after,
        (replay { settings := patient } troubled).handle false
            (question (.string "a(") (.string "a")) = (response, after) ∧
          response.status = 200 ∧ response.code? = some (.natural 1)) ∧
      ∃ response after,
        (replay { settings := patient } troubled).handle false
            (question (.string "ab") .null) = (response, after) ∧
          response.status = 400 := by
  refine ⟨?_, ?_, ?_⟩
  · obtain ⟨response, after, hequal, -, hall⟩ := handle_exact patient rfl rfl rfl troubled
      (question (.string "ab") (.string "a")) .input (Request.resolution_posted rfl _) rfl
    obtain ⟨hstatus, hgood, -⟩ := hall (has_required _ _)
    exact ⟨response, after, hequal, hstatus, hgood inOrder_question⟩
  · obtain ⟨response, after, hequal, -, hall⟩ := handle_exact patient rfl rfl rfl troubled
      (question (.string "a(") (.string "a")) .input (Request.resolution_posted rfl _) rfl
    obtain ⟨hstatus, -, hbad⟩ := hall (has_required _ _)
    exact ⟨response, after, hequal, hstatus, hbad not_inOrder_question⟩
  · obtain ⟨response, after, hequal, hmissing, -⟩ := handle_exact patient rfl rfl rfl troubled
      (question (.string "ab") .null) .input (Request.resolution_posted rfl _) rfl
    exact ⟨response, after, hequal, hmissing ⟨"inpStr", by simp [Route.required], rfl⟩⟩

end Posted

end Host
end RegexAutomata
