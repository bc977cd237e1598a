import RegexAutomata.Proofs.Service.Host

/-!
# Answers do not depend on what was asked before

What the session keeps is what it would make again under the same settings.  So it saves work, but
no answer to what is posted shows it.  Only the route that reports on the current analysis tells of
earlier requests: of the last one that was answered with automata.
-/

namespace RegexAutomata

namespace Session

/-- What is kept is what would be made from the start. -/
def Renewable (session : Session) (maxLength maxStates : Option Int) : Prop :=
  ∀ kept, session.current = some kept →
    fresh.analyse { maxLength, maxStates } (some kept.regex) = (.ok kept, ⟨some kept⟩)

variable {session : Session} {maxLength maxStates : Option Int} {outage : Bool}
  {regex : Option String}

theorem renewable_fresh : fresh.Renewable maxLength maxStates :=
  nofun

theorem Renewable.analyse (hrenewable : session.Renewable maxLength maxStates) :
    (session.analyse { maxLength, maxStates, outage } regex).2.Renewable maxLength maxStates := by
  rcases session.analyse_cases { maxLength, maxStates, outage } regex with ⟨_, -, hresult⟩ |
    ⟨text, hchecked, ⟨_, -, -, hresult⟩ | ⟨-, ⟨made, hbuild, hresult⟩ | ⟨_, -, hresult⟩⟩⟩
  · rwa [hresult]
  · rwa [hresult]
  · rw [hresult]
    rintro kept ⟨⟩
    -- during an outage nothing is made, so that there was none
    obtain rfl : outage = false := Analysis.works_of_build hbuild
    obtain rfl := (Analysis.build_eq_ok hbuild).1
    obtain rfl := checked_eq_ok hchecked
    exact analyse_eq_ok_iff.2 ⟨hchecked, rfl, Or.inr ⟨nofun, hbuild⟩⟩
  · rwa [hresult]

theorem perform_snd (session : Session) (conditions : Conditions) (regex : Option String)
    (task : Task) :
    (session.perform conditions regex task).2 = session ∨
      (session.perform conditions regex task).2 = (session.analyse conditions regex).2 := by
  cases task with
  | tree => exact Or.inl rfl
  | input text =>
    cases text with
    | none => exact Or.inl rfl
    | some text => exact Or.inr rfl
  | _ => exact Or.inr rfl

theorem Renewable.perform (hrenewable : session.Renewable maxLength maxStates) (task : Task) :
    (session.perform { maxLength, maxStates, outage } regex task).2.Renewable
      maxLength maxStates := by
  rcases session.perform_snd { maxLength, maxStates, outage } regex task with hsame | hanalyse
  · rwa [hsame]
  · rw [hanalyse]
    exact hrenewable.analyse

theorem Renewable.sound (hrenewable : session.Renewable maxLength maxStates) {kept : Analysis}
    (hkept : session.current = some kept) : kept.Sound := by
  obtain ⟨-, -, hnever | ⟨-, hbuild⟩⟩ := analyse_eq_ok_iff.1 (hrenewable kept hkept)
  · cases hnever
  · exact Analysis.sound_of_build hbuild

/-- There is the same analysis as there would be from the start, or none for the same reason. -/
theorem Renewable.analyse_eq (hrenewable : session.Renewable maxLength maxStates) :
    (session.analyse { maxLength, maxStates } regex).1 =
      (fresh.analyse { maxLength, maxStates } regex).1 := by
  rcases session.analyse_cases { maxLength, maxStates } regex with ⟨_, hchecked, hresult⟩ |
    ⟨text, hchecked, ⟨kept, hkept, rfl, hresult⟩ |
      ⟨-, ⟨made, hbuild, hresult⟩ | ⟨failure, hbuild, hresult⟩⟩⟩
  · rw [hresult, Session.analyse, hchecked]
  · rw [hresult, checked_eq_ok hchecked, hrenewable kept hkept]
  · rw [hresult]
    simp only [Session.analyse, hchecked, fresh, Option.filter_none, hbuild]
  · rw [hresult]
    simp only [Session.analyse, hchecked, fresh, Option.filter_none, hbuild]

theorem Renewable.perform_eq (hrenewable : session.Renewable maxLength maxStates) (task : Task) :
    (session.perform { maxLength, maxStates } regex task).1 =
      (fresh.perform { maxLength, maxStates } regex task).1 := by
  cases htask : task.report? with
  | some report =>
    rw [perform_of_report htask, perform_of_report htask]
    have hreport (start : Session) : (start.reportOn { maxLength, maxStates } regex report).1 =
        (start.analyse { maxLength, maxStates } regex).1 >>= fun analysis =>
          (report analysis).mapError .ofFailure := rfl
    rw [hreport, hreport, hrenewable.analyse_eq]
  | none =>
    cases task with
    | tree => rfl
    | input text =>
      cases text with
      | none => rfl
      | some text => cases htask
    | _ => cases htask

end Session

def Route.makesAutomata : Route → Bool
  | subset | direct | all | input => true
  | _ => false

theorem Route.makesAutomata_of_isFetched {route : Route} (hfetched : route.isFetched = true) :
    route.makesAutomata = false := by
  cases route with
  | test | current => rfl
  | _ => cases hfetched

/-- What is to be done on a route that makes automata is a report on them, or the text to run them
on is missing. -/
theorem Route.task_of_makesAutomata {route : Route} (hmakes : route.makesAutomata = true)
    (request : Request) :
    (∃ report, (route.task request).report? = some report) ∨ route.task request = .input none := by
  cases route with
  | test | tree | current => cases hmakes
  | subset | direct | all => exact Or.inl ⟨_, rfl⟩
  | input =>
    rw [Route.task]
    cases (request.member? "inpStr").bind Json.text? with
    | none => exact Or.inr rfl
    | some text => exact Or.inl ⟨_, rfl⟩

namespace Request

/-- The request is let in on a route. -/
def ComesTo (request : Request) (route : Route) : Prop :=
  Resolution.of request.address.requestedPath (Text.upper request.method) request.asksForSocket =
    .route route

def asksForAutomata (request : Request) : Bool :=
  match Resolution.of request.address.requestedPath (Text.upper request.method)
    request.asksForSocket with
  | .route route => route.makesAutomata
  | _ => false

theorem ComesTo.asksForAutomata_eq {request : Request} {route : Route}
    (hroute : request.ComesTo route) : request.asksForAutomata = route.makesAutomata := by
  unfold ComesTo at hroute
  unfold Request.asksForAutomata
  rw [hroute]

end Request

def Response.succeeds (response : Response) : Bool :=
  match response.code? with
  | some (.integer code) => code = 0
  | _ => false

theorem Response.succeeds_ofResult_iff {result : Except Refusal Json} :
    (ofResult result).succeeds = true ↔ ∃ data, result = .ok data := by
  rcases result with (_ | _) | data
  · exact iff_of_false (Bool.eq_false_iff.1 rfl) nofun
  · exact iff_of_false (Bool.eq_false_iff.1 rfl) nofun
  · exact iff_of_true rfl ⟨data, rfl⟩

namespace Host

variable {host : Host} {outage : Bool} {route : Route} {request : Request}

section Posted

def Renewable (host : Host) : Prop :=
  host.session.Renewable host.settings.maxRegexLength host.settings.maxDfaStates

theorem renewable_start (settings : Settings) : Renewable { settings } :=
  Session.renewable_fresh

theorem Renewable.follows {after : Host} (hrenewable : host.Renewable)
    (hfollows : host.Follows outage after) : after.Renewable := by
  obtain ⟨hsettings, hsame | ⟨regex, task, hperform⟩⟩ := hfollows
  · rwa [Renewable, hsettings, hsame]
  · rw [Renewable, hsettings, hperform]
    exact Session.Renewable.perform hrenewable task

theorem Renewable.replay (hrenewable : host.Renewable) (history : List (Bool × Request)) :
    (host.replay history).Renewable := by
  induction history generalizing host with
  | nil => exact hrenewable
  | cons exchange rest ih =>
    rw [replay_cons]
    exact ih (hrenewable.follows follows_handle)

theorem Renewable.perform_eq (hrenewable : host.Renewable) (regex : Json) (task : Task) :
    (host.perform false regex task).1 =
      (perform { settings := host.settings } false regex task).1 := by
  have hresult (start : Host) : (start.perform false regex task).1 =
      .ofResult (start.session.perform (start.conditions false) regex.text? task).1 := rfl
  rw [hresult, hresult]
  exact congrArg Response.ofResult (Session.Renewable.perform_eq hrenewable task)

theorem Renewable.answer_eq (hrenewable : host.Renewable) (hroute : route ≠ .current) :
    (host.answer false route request).1 =
      (answer { settings := host.settings } false route request).1 := by
  unfold answer
  cases request.member? "inpRegex" with
  | none => cases route <;> first | rfl | exact absurd rfl hroute
  | some regex =>
    cases route with
    | test => rfl
    | current => exact absurd rfl hroute
    | input =>
      cases request.member? "inpStr" with
      | none => rfl
      | some text => exact hrenewable.perform_eq regex _
    | _ => exact hrenewable.perform_eq regex _

/-- A service that keeps only what would be made again answers like one that has seen nothing. -/
theorem Renewable.handle_eq (hrenewable : host.Renewable)
    (hrate : host.settings.rateLimited = false) (hcurrent : ¬ request.ComesTo .current) :
    (host.handle false request).1 = (handle { settings := host.settings } false request).1 := by
  cases hresolution : Resolution.of request.address.requestedPath (Text.upper request.method)
    request.asksForSocket with
  | route route =>
    have hroute : route ≠ .current := by
      rintro rfl
      exact hcurrent hresolution
    rw [handle_of_route hresolution, handle_of_route hresolution]
    simp only [grant_of_unlimited hrate,
      @grant_of_unlimited { settings := host.settings } _ _ _ hrate, hrenewable.answer_eq hroute]
  | _ =>
    unfold handle
    simp only [hresolution]

end Posted

section Current

def transcript : Host → List (Bool × Request) → List (Request × Response)
  | _, [] => []
  | host, exchange :: rest =>
    (exchange.2, (host.handle exchange.1 exchange.2).1) ::
      (host.handle exchange.1 exchange.2).2.transcript rest

/-- The exchange is one of automata: they were asked for and given. -/
def isServed (exchange : Request × Response) : Bool :=
  exchange.1.asksForAutomata && exchange.2.succeeds

theorem isServed_of_route {response : Response} (hroute : request.ComesTo route) :
    isServed (request, response) = (route.makesAutomata && response.succeeds) := by
  rw [isServed, hroute.asksForAutomata_eq]

def served (exchanges : List (Request × Response)) : List Request :=
  (exchanges.filter isServed).map Prod.fst

/-- The last request that was answered with automata, after one more exchange. -/
def noted (known : Option Request) (exchange : Request × Response) : Option Request :=
  if isServed exchange then some exchange.1 else known

/-- The request that is noted last is the last one that was served. -/
theorem foldl_noted (known : Option Request) (exchanges : List (Request × Response)) :
    exchanges.foldl noted known = (served exchanges).getLast?.or known := by
  induction exchanges generalizing known with
  | nil => rfl
  | cons exchange rest ih =>
    rw [List.foldl_cons, ih]
    by_cases hserved : isServed exchange
    · have hcons : served (exchange :: rest) = exchange.1 :: served rest := by
        rw [served, List.filter_cons_of_pos hserved, List.map_cons, ← served]
      rw [hcons, List.getLast?_cons, noted, if_pos hserved]
      cases (served rest).getLast? <;> rfl
    · have hcons : served (exchange :: rest) = served rest := by
        rw [served, List.filter_cons_of_neg hserved, ← served]
      rw [hcons, noted, if_neg hserved]

/-- The session keeps an analysis of the regular expression in this request, or nothing if there is
none. -/
inductive Remembers (host : Host) : Option Request → Prop
  | nothing (hcurrent : host.session.current = none) : host.Remembers none
  | last {request : Request} {analysis : Analysis} (hcurrent : host.session.current = some analysis)
      (hmember : request.member? "inpRegex" = some (.string analysis.regex)) :
      host.Remembers (some request)

variable {known : Option Request}

theorem Remembers.of_session {after : Host} (hremembers : host.Remembers known)
    (hsame : after.session = host.session) : after.Remembers known := by
  cases hremembers with
  | nothing hcurrent => exact .nothing (hsame ▸ hcurrent)
  | last hcurrent hmember => exact .last (hsame ▸ hcurrent) hmember

theorem Remembers.perform (hremembers : host.Remembers known) {regex : Json} {task : Task}
    (hregex : request.member? "inpRegex" = some regex) {report : Analysis → Except Failure Json}
    (htask : task.report? = some report) :
    (host.perform outage regex task).2.Remembers
      (if (host.perform outage regex task).1.succeeds then some request else known) := by
  obtain ⟨result, after, hperform⟩ : ∃ result after,
    host.session.perform (host.conditions outage) regex.text? task = (result, after) := ⟨_, _, rfl⟩
  have hhost : host.perform outage regex task =
      (.ofResult result, { host with session := after }) := by
    simp only [Host.perform, hperform]
  rw [hhost]
  cases result with
  | ok data =>
    rw [if_pos (Response.succeeds_ofResult_iff.2 ⟨data, rfl⟩)]
    rw [Session.perform_of_report htask, Session.reportOn_eq_ok_iff] at hperform
    obtain ⟨analysis, hanalyse, -⟩ := hperform
    obtain ⟨hchecked, rfl, -⟩ := Session.analyse_eq_ok_iff.1 hanalyse
    refine .last rfl ?_
    rw [hregex, text?_eq_some_iff.1 (Session.checked_eq_ok hchecked)]
  | error refusal =>
    rw [if_neg (mt Response.succeeds_ofResult_iff.1 (by rintro ⟨_, hnever⟩; cases hnever))]
    have hobey : host.session.obey (host.conditions outage) (.perform regex.text? task) =
        (.refused refusal, after) := by
      simp only [Session.obey, hperform]
      rfl
    obtain rfl : after = host.session := by
      have hrefused : ¬ (host.session.obey (host.conditions outage)
          (.perform regex.text? task)).1.IsGiven := by
        rw [hobey]
        exact fun hgiven => hgiven refusal rfl
      have hsame := Session.obey_of_not_isGiven hrefused
      rwa [hobey] at hsame
    exact hremembers.of_session rfl

theorem session_answer_of_not_makesAutomata (hmakes : route.makesAutomata = false) :
    (host.answer outage route request).2.session = host.session := by
  rcases host.answer_cases outage route request with ⟨-, hsame⟩ | ⟨name, -, -, hequal⟩ |
    ⟨regex, -, -, hequal⟩
  · rw [hsame]
  · rw [hequal]
  · rw [hequal]
    cases route with
    | test | tree | current => rfl
    | _ => cases hmakes

theorem Remembers.answer (hremembers : host.Remembers known) (outage : Bool) (route : Route)
    (request : Request) :
    (host.answer outage route request).2.Remembers
      (if route.makesAutomata && (host.answer outage route request).1.succeeds then some request
        else known) := by
  by_cases hmakes : route.makesAutomata
  · rw [hmakes, Bool.true_and]
    rcases host.answer_cases outage route request with ⟨hfetched, -⟩ | ⟨name, -, -, hequal⟩ |
      ⟨regex, hregex, -, hequal⟩
    · cases hmakes.symm.trans (Route.makesAutomata_of_isFetched hfetched)
    · have hfails : (Response.missing name).succeeds = false := rfl
      rw [hequal, hfails, if_neg Bool.false_ne_true]
      exact hremembers
    · rw [hequal]
      rcases Route.task_of_makesAutomata hmakes request with ⟨report, hreport⟩ | hnone
      · exact hremembers.perform hregex hreport
      · have hfails : (host.perform outage regex (.input none)).1.succeeds = false := rfl
        rw [hnone, hfails, if_neg Bool.false_ne_true]
        exact hremembers
  · rw [eq_false_of_ne_true hmakes, Bool.false_and, if_neg Bool.false_ne_true]
    exact hremembers.of_session (session_answer_of_not_makesAutomata (eq_false_of_ne_true hmakes))

theorem Remembers.grant (hremembers : host.Remembers known) (outage : Bool) (route : Route)
    (request : Request) :
    (host.grant outage route request).2.Remembers
      (if route.makesAutomata && (host.grant outage route request).1.succeeds then some request
        else known) := by
  simp only [Host.grant]
  split
  · refine Remembers.answer ?_ outage route request
    exact hremembers.of_session rfl
  · rw [show Response.tooMany.succeeds = false from rfl, Bool.and_false,
      if_neg Bool.false_ne_true]
    exact hremembers.of_session rfl

/-- After a request the session remembers it, if it was answered with automata, and otherwise what
it remembered before. -/
theorem Remembers.handle (hremembers : host.Remembers known) (outage : Bool)
    (request : Request) :
    (host.handle outage request).2.Remembers
      (noted known (request, (host.handle outage request).1)) := by
  rw [noted]
  cases hresolution : Resolution.of request.address.requestedPath (Text.upper request.method)
    request.asksForSocket with
  | route route =>
    have hgrant := hremembers.grant outage route request
    rw [handle_of_route hresolution, isServed_of_route hresolution]
    by_cases hfetched : route.isFetched
    · rw [Route.makesAutomata_of_isFetched hfetched, Bool.false_and] at hgrant ⊢
      exact hgrant
    · rw [Response.forMethod_of_ne
        (Resolution.ne_head_of_eq_route hresolution (eq_false_of_ne_true hfetched))]
      exact hgrant
  | _ =>
    have hserved (response : Response) : isServed (request, response) = false := by
      unfold isServed Request.asksForAutomata
      simp only [hresolution, Bool.false_and]
    have hsame : (host.handle outage request).2 = host := by
      unfold Host.handle
      simp only [hresolution]
    rw [hserved, if_neg Bool.false_ne_true, hsame]
    exact hremembers

theorem Remembers.replay (hremembers : host.Remembers known) (history : List (Bool × Request)) :
    (host.replay history).Remembers ((served (host.transcript history)).getLast?.or known) := by
  rw [← foldl_noted]
  induction history generalizing host known with
  | nil => exact hremembers
  | cons exchange rest ih =>
    rw [replay_cons, transcript, List.foldl_cons]
    exact ih (hremembers.handle exchange.1 exchange.2)

/-- The report on the current analysis is what is fetched. -/
theorem handle_current (hrate : host.settings.rateLimited = false)
    (hroute : request.ComesTo .current) (hmethod : request.method ≠ "HEAD") :
    (host.handle outage request).1 = host.currentReport := by
  rw [handle_of_route hroute, grant_of_unlimited hrate, Response.forMethod_of_ne hmethod]
  rfl

/-- The report on what is kept is the answer, from the start, to a request for everything. -/
theorem Renewable.handle_all (hrenewable : host.Renewable)
    (hrate : host.settings.rateLimited = false) {kept : Analysis}
    (hkept : host.session.current = some kept) (hroute : request.ComesTo .all)
    (hmember : request.member? "inpRegex" = some (.string kept.regex)) :
    (handle { settings := host.settings } false request).1 =
      .ofResult (kept.report.mapError .ofFailure) := by
  have hmethod : request.method ≠ "HEAD" := Resolution.ne_head_of_eq_route hroute rfl
  have hanswer : answer { settings := host.settings } false .all request =
      perform { settings := host.settings } false (.string kept.regex) .all := by
    unfold answer
    rw [hmember]
  have hperform : (perform { settings := host.settings } false (.string kept.regex) .all).1 =
      .ofResult ((Session.fresh.analyse
        { maxLength := host.settings.maxRegexLength, maxStates := host.settings.maxDfaStates }
        (some kept.regex)).1 >>= fun analysis => analysis.report.mapError .ofFailure) := rfl
  rw [handle_of_route hroute, @grant_of_unlimited { settings := host.settings } _ _ _ hrate,
    Response.forMethod_of_ne hmethod, hanswer, hperform, hrenewable kept hkept]
  rfl

end Current

/-- As long as requests are not limited and nothing is out of order, no answer depends on what was
requested before, whether or not there were outages then: it is what the service answers from the
start.  The report on the current analysis alone tells of earlier requests.  Its code is one if no
automata have been asked for with success.  Otherwise it is what the service answers, from the
start, to a request for everything about the regular expression of the last such request. -/
theorem answers_independent (settings : Settings) (hrate : settings.rateLimited = false)
    (history : List (Bool × Request)) (request : Request) :
    (¬ request.ComesTo .current →
      ((replay { settings } history).handle false request).1 =
        (handle { settings } false request).1) ∧
    (request.ComesTo .current → request.method ≠ "HEAD" →
      ∃ response, ((replay { settings } history).handle false request).1 = response ∧
        (response.code? = some (.natural 1) ↔ served (transcript { settings } history) = []) ∧
        ∀ last ∈ (served (transcript { settings } history)).getLast?,
          response.code? = some (.natural 0) ∧
          ∃ text, last.member? "inpRegex" = some (.string text) ∧
            ∀ whole : Request, whole.ComesTo .all →
              whole.member? "inpRegex" = some (.string text) →
                response = (handle { settings } false whole).1) := by
  obtain ⟨host, hhost⟩ : ∃ host, replay { settings } history = host := ⟨_, rfl⟩
  have hsettings : host.settings = settings := hhost ▸ settings_replay history
  have hrenewable : host.Renewable := hhost ▸ (renewable_start settings).replay history
  have hremembers : host.Remembers (served (transcript { settings } history)).getLast? := by
    have hstart : Remembers { settings } none := .nothing rfl
    rw [← hhost, ← (served (transcript { settings } history)).getLast?.or_none]
    exact hstart.replay history
  subst hsettings
  rw [hhost]
  refine ⟨hrenewable.handle_eq hrate, fun hroute hmethod => ⟨_, rfl, ?_⟩⟩
  rw [handle_current hrate hroute hmethod, ← List.getLast?_eq_none_iff]
  generalize (served (transcript { settings := host.settings } history)).getLast? = known at *
  cases hremembers with
  | nothing hcurrent =>
    have hnothing : host.currentReport = .nothingYet := by
      rw [currentReport, Session.currentReport, hcurrent]
      rfl
    rw [hnothing]
    exact ⟨iff_of_true rfl rfl, nofun⟩
  | @last last kept hcurrent hmember =>
    have hreport : host.currentReport = .ofResult (kept.report.mapError .ofFailure) := by
      rw [currentReport, Session.currentReport, hcurrent]
      rfl
    obtain ⟨data, hdata, -⟩ := (Session.Renewable.sound hrenewable hcurrent).report
    have hgood : host.currentReport.code? = some (.natural 0) := by
      rw [hreport, hdata]
      rfl
    have hother : host.currentReport.code? ≠ some (.natural 1) := by
      rw [hgood]
      simp [Json.natural]
    refine ⟨iff_of_false hother nofun, ?_⟩
    rintro _ ⟨⟩
    refine ⟨hgood, kept.regex, hmember, fun whole hwhole hregex => ?_⟩
    rw [hreport, hrenewable.handle_all hrate hcurrent hwhole hregex]

def fetching : Request :=
  { target := Route.current.path, method := "GET" }

theorem comesTo_fetching : fetching.ComesTo .current := by
  unfold Request.ComesTo
  decide +kernel

theorem answers_independent_troubled :
    ((replay { settings := patient } troubled).handle false
        (question (.string "ab") (.string "a"))).1 =
      (handle { settings := patient } false (question (.string "ab") (.string "a"))).1 ∧
    ((replay { settings := patient } troubled).handle false fetching).1 =
      (handle { settings := patient } false
        (.posted .all (.json (.object [("inpRegex", .string "ab")])))).1 ∧
    ((replay { settings := patient } []).handle false fetching).1.code? = some (.natural 1) := by
  refine ⟨?_, ?_, ?_⟩
  · refine (answers_independent patient rfl troubled (question (.string "ab") (.string "a"))).1 ?_
    intro hcurrent
    cases (Request.resolution_posted rfl _).symm.trans hcurrent
  · obtain ⟨response, hresponse, -, hlast⟩ :=
      (answers_independent patient rfl troubled fetching).2 comesTo_fetching (by decide)
    have hserved : ((served (transcript { settings := patient } troubled)).map fun request =>
        (request.member? "inpRegex").bind Json.text?) = [some "ab"] := by
      decide +kernel
    obtain ⟨last, hone, hregex⟩ := List.map_eq_singleton_iff.1 hserved
    rw [hone] at hlast
    obtain ⟨-, text, hmember, hwhole⟩ := hlast last rfl
    obtain rfl : text = "ab" := by
      rw [hmember] at hregex
      exact Option.some.inj hregex
    rw [hresponse]
    exact hwhole _ (Request.resolution_posted rfl _) rfl
  · obtain ⟨response, hresponse, hnone, -⟩ :=
      (answers_independent patient rfl [] fetching).2 comesTo_fetching (by decide)
    rw [hresponse]
    exact hnone.2 rfl

end Host
end RegexAutomata
