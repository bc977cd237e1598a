import RegexAutomata.Proofs.Service.Independence
import RegexAutomata.Proofs.Service.Rate

/-!
# Clients and routes do not use up each other's rates

A request on a route is turned away exactly if its client has come to this route before as often as
the route admits.  What else was requested, by whom, and how it was answered makes no difference;
in particular requests count whether or not they were well formed.  Being turned away changes
nothing about the service.
-/

namespace RegexAutomata

namespace Route

def rate (settings : Settings) (route : Route) : String :=
  if route = test then settings.testRate else settings.regexRate

theorem allowance_of_perUnit {settings : Settings} {route : Route} {amount : Nat}
    {unit : Rate.TimeUnit} (hlimited : settings.rateLimited = true)
    (hrate : route.rate settings = Rate.perUnit amount unit)
    (hdigits : (toString amount).length ≤ Text.mostDigits) :
    route.allowance settings = some amount := by
  rw [allowance, if_pos hlimited, ← rate, hrate, Rate.allowanceOf_perUnit hdigits]

end Route

namespace Request

def client (request : Request) : String :=
  Client.address request.headers request.remote

instance (request : Request) (route : Route) : Decidable (request.ComesTo route) :=
  inferInstanceAs (Decidable (_ = _))

/-- A request is let in on one route only. -/
theorem ComesTo.unique {request : Request} {route other : Route} (hroute : request.ComesTo route)
    (hother : request.ComesTo other) : route = other :=
  Resolution.route.inj (hroute.symm.trans hother)

end Request

namespace Response

theorem status_forMethod (response : Response) (method : String) :
    (response.forMethod method).status = response.status := by
  rw [forMethod]
  split <;> rfl

theorem status_ofResult (result : Except Refusal Json) :
    (ofResult result).status = 200 ∨ (ofResult result).status = 500 := by
  rcases result with (_ | _) | _
  · exact Or.inl rfl
  · exact Or.inr rfl
  · exact Or.inl rfl

end Response

namespace Host

variable {host : Host} {outage : Bool} {route : Route} {request : Request} {client : String}
  {amount : Nat} {history : List (Bool × Request)}

section Verdict

def count (host : Host) (client : String) (route : Route) : Nat :=
  Rate.count host.counters client route

/-- The client has had as many requests on the route as the route admits. -/
def Exhausts (host : Host) (request : Request) (route : Route) : Prop :=
  request.client ≠ "" ∧ ∃ amount, route.allowance host.settings = some amount ∧
    amount ≤ host.count request.client route

theorem counters_answer : (host.answer outage route request).2.counters = host.counters := by
  rcases host.answer_cases outage route request with ⟨-, hsame⟩ | ⟨name, -, -, hequal⟩ |
    ⟨regex, -, -, hequal⟩
  · rw [hsame]
  · rw [hequal]
  · rw [hequal]
    rfl

/-- What is let through succeeds, or a member is missing, or the service is out of order. -/
theorem status_answer :
    (host.answer outage route request).1.status = 200 ∨
      (host.answer outage route request).1.status = 400 ∨
      (host.answer outage route request).1.status = 500 := by
  have hresult (result : Except Refusal Json) : (Response.ofResult result).status = 200 ∨
      (Response.ofResult result).status = 400 ∨ (Response.ofResult result).status = 500 :=
    (Response.status_ofResult result).imp_right Or.inr
  unfold answer
  split
  · exact Or.inl rfl
  · rw [currentReport]
    split
    · exact Or.inl rfl
    · exact hresult _
  · exact Or.inr (Or.inl rfl)
  · exact hresult _
  · exact hresult _
  · exact hresult _
  · exact hresult _
  · split
    · exact Or.inr (Or.inl rfl)
    · exact hresult _

def counted (host : Host) (route : Route) (request : Request) : Host :=
  { host with
    counters := (Rate.grant (route.allowance host.settings) request.client route
      host.counters).2 }

/-- A request comes to no route, or it is one too many, or it is answered and counted.  The service
stays as it is in the first two cases. -/
theorem handle_cases (host : Host) (outage : Bool) (request : Request) :
    ((∀ route, ¬ request.ComesTo route) ∧
      ∃ status, status ≠ 429 ∧ host.handle outage request = (.bare status, host)) ∨
    ∃ route, request.ComesTo route ∧
      ((host.Exhausts request route ∧
        host.handle outage request = (Response.tooMany.forMethod request.method, host)) ∨
      (¬ host.Exhausts request route ∧ host.handle outage request =
        (((host.counted route request).answer outage route request).1.forMethod request.method,
          ((host.counted route request).answer outage route request).2))) := by
  cases hresolution : Resolution.of request.address.requestedPath (Text.upper request.method)
    request.asksForSocket with
  | route route =>
    have hfalse : (Rate.grant (route.allowance host.settings) request.client route
        host.counters).1 = false ↔ host.Exhausts request route := Rate.granted_eq_false_iff
    refine Or.inr ⟨route, hresolution, ?_⟩
    rw [handle_of_route hresolution, ← hfalse, grant, ← Request.client]
    cases hgranted : (Rate.grant (route.allowance host.settings) request.client route
      host.counters).1 with
    | false => exact Or.inl ⟨rfl, by simp only [hgranted]; rfl⟩
    | true => exact Or.inr ⟨Bool.noConfusion, by simp only [hgranted]; rfl⟩
  | _ =>
    refine Or.inl ⟨fun other hother => ?_, ?_⟩
    · cases hresolution.symm.trans hother
    · unfold handle
      simp only [hresolution]
      exact ⟨_, by decide, rfl⟩

/-- A request is answered as one too many exactly if it comes to a route whose rate its client has
exhausted. -/
theorem handle_status_iff :
    (host.handle outage request).1.status = 429 ↔
      ∃ route, request.ComesTo route ∧ host.Exhausts request route := by
  rcases host.handle_cases outage request with ⟨hnever, status, hstatus, hequal⟩ |
    ⟨route, hroute, ⟨hexhausts, hequal⟩ | ⟨hroom, hequal⟩⟩
  · rw [hequal]
    refine iff_of_false hstatus ?_
    rintro ⟨route, hroute, -⟩
    exact hnever route hroute
  · rw [hequal, Response.status_forMethod]
    exact iff_of_true rfl ⟨route, hroute, hexhausts⟩
  · rw [hequal, Response.status_forMethod]
    refine iff_of_false (fun htooMany => ?_) ?_
    · rcases @status_answer (host.counted route request) outage route request with
        hstatus | hstatus | hstatus <;> exact absurd (hstatus.symm.trans htooMany) (by decide)
    · rintro ⟨other, hother, hexhausts⟩
      exact hroom (hother.unique hroute ▸ hexhausts)

/-- A request that is one too many changes nothing. -/
theorem handle_eq_of_status (hstatus : (host.handle outage request).1.status = 429) :
    (host.handle outage request).2 = host := by
  obtain ⟨place, hplace, hexhausted⟩ := handle_status_iff.1 hstatus
  rcases host.handle_cases outage request with ⟨hnever, -⟩ |
    ⟨route, hroute, ⟨-, hequal⟩ | ⟨hroom, -⟩⟩
  · exact absurd hplace (hnever place)
  · rw [hequal]
  · exact absurd (hplace.unique hroute ▸ hexhausted) hroom

end Verdict

section Counting

/-- A request leaves alone the counts of other clients and of other routes. -/
theorem count_handle_of_not (hother : ¬ (request.ComesTo route ∧ request.client = client)) :
    (host.handle outage request).2.count client route = host.count client route := by
  rcases host.handle_cases outage request with ⟨-, status, -, hequal⟩ |
    ⟨place, hplace, ⟨-, hequal⟩ | ⟨-, hequal⟩⟩
  · rw [hequal]
  · rw [hequal]
  · have hkey : (request.client, place) ≠ (client, route) := by
      rintro hsame
      obtain ⟨hclient, rfl⟩ := Prod.mk.inj hsame
      exact hother ⟨hplace, hclient⟩
    rw [hequal, count, counters_answer]
    exact Rate.count_grant_of_ne _ hkey

/-- A request is counted under its client and its route, as long as there is room. -/
theorem count_handle (hroute : request.ComesTo route) (hclient : request.client ≠ "")
    (hallowance : route.allowance host.settings = some amount)
    (hcount : host.count request.client route ≤ amount) :
    (host.handle outage request).2.count request.client route =
      min amount (host.count request.client route + 1) := by
  rcases host.handle_cases outage request with ⟨hnever, -⟩ |
    ⟨place, hplace, ⟨⟨-, other, hother, hfull⟩, hequal⟩ | ⟨-, hequal⟩⟩
  · exact absurd hroute (hnever route)
  · obtain rfl := hplace.unique hroute
    obtain rfl : amount = other := Option.some.inj (hallowance.symm.trans hother)
    rw [hequal]
    show host.count request.client place = _
    omega
  · obtain rfl := hplace.unique hroute
    rw [hequal, count, counters_answer, counted, hallowance]
    exact Rate.count_grant hclient hcount

def attempts (route : Route) (client : String) (history : List (Bool × Request)) : Nat :=
  history.countP fun exchange => exchange.2.ComesTo route ∧ exchange.2.client = client

theorem attempts_cons (exchange : Bool × Request) (history : List (Bool × Request)) :
    attempts route client (exchange :: history) =
      attempts route client history +
        if exchange.2.ComesTo route ∧ exchange.2.client = client then 1 else 0 := by
  simp only [attempts, List.countP_cons, decide_eq_true_eq]

/-- After any history the count of a client on a route is the number of its requests there, up to
what the route admits. -/
theorem count_replay (hallowance : route.allowance host.settings = some amount)
    (hclient : client ≠ "") (hcount : host.count client route ≤ amount)
    (history : List (Bool × Request)) :
    (host.replay history).count client route =
      min amount (host.count client route + attempts route client history) := by
  induction history generalizing host with
  | nil =>
    show host.count client route = min amount (host.count client route + 0)
    omega
  | cons exchange rest ih =>
    obtain ⟨after, hafter⟩ : ∃ after, (host.handle exchange.1 exchange.2).2 = after := ⟨_, rfl⟩
    have hsettings : after.settings = host.settings := hafter ▸ follows_handle.1
    rw [replay_cons, attempts_cons, hafter]
    by_cases hown : exchange.2.ComesTo route ∧ exchange.2.client = client
    · have hcounted : after.count client route = min amount (host.count client route + 1) := by
        obtain ⟨hroute, rfl⟩ := hown
        rw [← hafter]
        exact count_handle hroute hclient hallowance hcount
      rw [ih (hsettings ▸ hallowance) (by omega), hcounted, if_pos hown]
      omega
    · have hsame : after.count client route = host.count client route := by
        rw [← hafter]
        exact count_handle_of_not hown
      rw [ih (hsettings ▸ hallowance) (by omega), hsame, if_neg hown, Nat.add_zero]

theorem count_replay_start {settings : Settings}
    (hallowance : route.allowance settings = some amount) (hclient : client ≠ "")
    (history : List (Bool × Request)) :
    (replay { settings } history).count client route =
      min amount (attempts route client history) := by
  have hstart : count { settings } client route = 0 := rfl
  have hcount := @count_replay { settings } route client amount hallowance hclient
    (hstart ▸ Nat.zero_le amount) history
  rwa [hstart, Nat.zero_add] at hcount

end Counting

/-- Whatever the requests before were, whoever made them and however they were answered, a request
on a route is answered as one too many exactly if its client has come to this route before as often
as the route admits, or more often.  The service is then left as it was, current analysis included.
What a route admits is the number in the text of its rate. -/
theorem rates_isolated (settings : Settings) :
    (∀ history outage request route amount, request.ComesTo route → request.client ≠ "" →
      route.allowance settings = some amount →
      (((replay { settings } history).handle outage request).1.status = 429 ↔
        amount ≤ attempts route request.client history)) ∧
    (∀ history outage request,
      ((replay { settings } history).handle outage request).1.status = 429 →
        ((replay { settings } history).handle outage request).2 = replay { settings } history) ∧
    ∀ (route : Route) (amount : Nat) (unit : Rate.TimeUnit), settings.rateLimited = true →
      route.rate settings = Rate.perUnit amount unit → (toString amount).length ≤ Text.mostDigits →
        route.allowance settings = some amount := by
  refine ⟨?_, fun _ _ _ => handle_eq_of_status,
    fun _ _ _ hlimited hrate hdigits => Route.allowance_of_perUnit hlimited hrate hdigits⟩
  intro history outage request route amount hroute hclient hallowance
  have hcount := count_replay_start hallowance hclient history
  rw [handle_status_iff]
  constructor
  · rintro ⟨other, hother, -, found, hfound, hfull⟩
    obtain rfl := hroute.unique hother
    rw [settings_replay, hallowance] at hfound
    obtain rfl := Option.some.inj hfound
    omega
  · intro hfull
    refine ⟨route, hroute, hclient, amount, ?_, ?_⟩
    · rw [settings_replay]
      exact hallowance
    · omega

/-- The settings for production, with two tests an hour. -/
def twicePerHour : Settings :=
  { testRate := "2/hour" }

def probe (client : String) : Request :=
  { target := Route.test.path, method := "GET",
    headers := [("X-Forwarded-For", "10.0.0.1, " ++ client)] }

/-- Tests by two clients, with an outage and a missing body in between. -/
def crowd : List (Bool × Request) :=
  [(false, probe "192.0.2.7"),
    (true, .posted .subset (.json (.object [("inpRegex", .string "a")]))),
    (false, probe "192.0.2.8"), (false, .posted .tree .absent), (false, probe "192.0.2.7")]

theorem rates_isolated_crowd :
    Settings.load [("TEST_RATE_LIMIT", "2/hour")] "prod" = .ok twicePerHour ∧
      Route.test.allowance twicePerHour = some 2 ∧
      ((replay { settings := twicePerHour } crowd).handle false (probe "192.0.2.7")).1.status =
        429 ∧
      ((replay { settings := twicePerHour } crowd).handle false (probe "192.0.2.7")).2 =
        replay { settings := twicePerHour } crowd ∧
      ((replay { settings := twicePerHour } crowd).handle false (probe "192.0.2.8")).1.status ≠
        429 := by
  obtain ⟨hverdict, hunchanged, hreading⟩ := rates_isolated twicePerHour
  have hallowance : Route.test.allowance twicePerHour = some 2 :=
    hreading .test 2 .hour rfl (by decide +kernel) (by decide +kernel)
  have hturned : ((replay { settings := twicePerHour } crowd).handle false
      (probe "192.0.2.7")).1.status = 429 :=
    (hverdict crowd false (probe "192.0.2.7") .test 2 (by decide +kernel) (by decide +kernel)
      hallowance).2 (by decide +kernel)
  refine ⟨by decide +kernel, hallowance, hturned, hunchanged crowd false _ hturned, ?_⟩
  rw [Ne, hverdict crowd false (probe "192.0.2.8") .test 2 (by decide +kernel) (by decide +kernel)
    hallowance]
  decide +kernel

end Host
end RegexAutomata
