import BeenHere.Tracking
import BeenHere.Walks

/-!
# From reports to visits

A session of the locator tab, from its loading on, with no other writer of the store: the user
starts and stops tracking, leaves the tab and comes back, the authorization changes, CoreLocation
reports locations and failures, and the geocoders answer in any order. Most of this leaves the store
alone. Of the reports only the last location of a batch counts, and only if it is accurate; of the
accepted locations only those that a geocoder answers with an error or with a placemark.

The fixes that a session hands to `locationUpdated` can be read off its actions alone
(`handedFixes`), and what the session does to the app and which alerts it shows is what the walk of
these fixes does (`walk_of_run`). For a user who is signed in this gives the session as a whole
(`session_of_run`), and that the order in which the geocoders answer, and everything else that
happens in between, has no influence on what is recorded (`recorded_of_perm`), though it has one on
the congratulations (`recorded_of_perm_sample`).
-/

set_option autoImplicit false
set_option relaxedAutoImplicit false

namespace BeenHere

namespace Tracking

/-! ### What the actions hand over -/

/-- The location of a batch that is sent to a geocoder: the last one, if it is accurate. -/
def lastAccurate (locations : List Location) : Option Location :=
  locations.getLast?.filter fun newLocation ↦ newLocation.horizontalAccuracy < 1500

/-- The location that a report sends to a geocoder. -/
def Action.accepted? : Action → Option Location
  | .didUpdateLocations locations => lastAccurate locations
  | _ => none

/-- The accepted locations, oldest first. -/
def accepted (actions : List Action) : List Location := actions.filterMap Action.accepted?

/-- The fix that an answer to a location hands over. -/
def fix? (location : Location) : GeocoderAnswer → Option Fix
  | .error => some ⟨location.coordinate, none⟩
  | .placemarks found =>
    (found.getD []).head?.bind fun placemark ↦
      placemark.formattedAddressLines.map fun lines ↦
        ⟨location.coordinate, some (", ".intercalate lines)⟩

/-- The fix that an action hands over, for the accepted locations. -/
def Action.fix? (locations : List Location) : Action → Option Fix
  | .complete reception answer =>
    locations[reception]?.bind fun location ↦ Tracking.fix? location answer
  | _ => none

/-- The fixes that the actions hand to `locationUpdated`, oldest first. -/
def handedFixes (actions : List Action) : List Fix :=
  actions.filterMap (Action.fix? (accepted actions))

/-- An answer of a geocoder. -/
def Action.isAnswer : Action → Bool
  | .complete _ _ => true
  | _ => false

/-! ### What a step does to the app -/

section Step

variable {distanceBetween : Point → Point → ℚ} {state next : Tracking} {action : Action}

/-- What a session keeps of the app, the alerts and the requests. -/
def SameRecord (first second : Tracking) : Prop :=
  second.app = first.app ∧ second.view.alerts = first.view.alerts ∧
    second.requests = first.requests ∧ second.received = first.received

theorem sameRecord_getLocationAction (state : Tracking) :
    SameRecord state state.getLocationAction := by
  unfold getLocationAction checkPermission
  split <;> exact ⟨rfl, rfl, rfl, rfl⟩

/-- A batch brings its last location under way if that is accurate. -/
theorem didUpdateLocations_eq (state : Tracking) (locations : List Location) :
    state.didUpdateLocations locations =
      (lastAccurate locations).elim state state.reverseGeocode := by
  simp only [didUpdateLocations, lastAccurate]
  cases locations.getLast? with
  | none => rfl
  | some newLocation =>
    by_cases haccurate : newLocation.horizontalAccuracy < 1500 <;>
      simp [Option.filter, haccurate]

/-- The completion handler hands the fix of the answer to `locationUpdated`, if there is one, and
touches no request. -/
theorem finishGeocode_eq_some {request : GeocoderRequest} {answer : GeocoderAnswer}
    (h : finishGeocode distanceBetween state request answer = some next) :
    (next.app, next.view) = (fix? request.location answer).elim (state.app, state.view)
        (locationUpdated distanceBetween state.app state.view) ∧
      next.requests = state.requests ∧ next.received = state.received := by
  cases answer with
  | error =>
    obtain rfl := Option.some.inj h
    exact ⟨rfl, rfl, rfl⟩
  | placemarks found =>
    simp only [finishGeocode] at h
    simp only [fix?]
    cases hfound : found.getD [] with
    | nil =>
      rw [hfound] at h
      obtain rfl := Option.some.inj h
      exact ⟨rfl, rfl, rfl⟩
    | cons placemark rest =>
      rw [hfound] at h
      obtain ⟨lines, hlines, rfl⟩ := Option.map_eq_some_iff.mp h
      rw [List.head?_cons, Option.bind_some, hlines]
      exact ⟨rfl, rfl, rfl⟩

/-- What a step does: a location is accepted, or a request is answered, or the app, the alerts and
the requests stay as they are. -/
theorem step_cases (hstep : step distanceBetween state action = some next) :
    (∃ location, action.accepted? = some location ∧ action.isAnswer = false ∧
        next = state.reverseGeocode location) ∨
      (∃ reception answer request, action = .complete reception answer ∧
        request ∈ state.requests ∧ request.reception = reception ∧
        finishGeocode distanceBetween { state with requests := state.requests.erase request }
          request answer = some next) ∨
      action.accepted? = none ∧ action.isAnswer = false ∧ SameRecord state next := by
  cases action with
  | complete reception answer =>
    obtain ⟨request, hrequest, hfinish⟩ := Option.bind_eq_some_iff.mp hstep
    have hreception : request.reception = reception := by simpa using List.find?_some hrequest
    exact Or.inr (Or.inl ⟨reception, answer, request, rfl, List.mem_of_find?_eq_some hrequest,
      hreception, hfinish⟩)
  | didUpdateLocations locations =>
    simp only [step] at hstep
    split_ifs at hstep
    rw [Option.some.injEq, didUpdateLocations_eq] at hstep
    cases haccepted : lastAccurate locations with
    | none =>
      rw [haccepted] at hstep
      exact Or.inr (Or.inr ⟨haccepted, rfl, hstep ▸ ⟨rfl, rfl, rfl, rfl⟩⟩)
    | some location =>
      rw [haccepted] at hstep
      exact Or.inl ⟨location, haccepted, rfl, hstep.symm⟩
  | getLocation =>
    obtain rfl := Option.some.inj hstep
    exact Or.inr (Or.inr ⟨rfl, rfl, sameRecord_getLocationAction state⟩)
  | didChangeAuthorization status =>
    obtain rfl := Option.some.inj hstep
    refine Or.inr (Or.inr ⟨rfl, rfl, ?_⟩)
    split_ifs
    · exact sameRecord_getLocationAction { state with authorization := status }
    · exact ⟨rfl, rfl, rfl, rfl⟩
  | stopLocation | viewWillDisappear | viewDidAppear | didFailWithError =>
    obtain rfl := Option.some.inj hstep
    exact Or.inr (Or.inr ⟨rfl, rfl, rfl, rfl, rfl, rfl⟩)

end Step

/-! ### The actions so far -/

section History

variable {distanceBetween : Point → Point → ℚ} {state next final : Tracking} {action : Action}
variable {past actions : List Action} {app : App} {authorization : AuthorizationStatus}

theorem accepted_concat (past : List Action) (action : Action) :
    accepted (past ++ [action]) = accepted past ++ action.accepted?.toList := by
  rw [accepted, List.filterMap_append]
  cases haccepted : action.accepted? <;> simp [haccepted, accepted]

variable (distanceBetween app) in
/-- A state and the actions that led to it. The requests under way and those that have been answered
are of accepted locations, and what the app and the alerts are is what the walk of the fixes handed
over makes of them. -/
structure Accounts (past : List Action) (state : Tracking) : Prop where
  received : state.received = (accepted past).length
  requests : ∀ request ∈ state.requests, (accepted past)[request.reception]? = some request.location
  answered : ∀ reception answer, .complete reception answer ∈ past →
    reception < (accepted past).length
  sameApp : state.app = (walk distanceBetween (app, Locator.loaded) (handedFixes past)).1
  sameAlerts : state.view.alerts =
    (walk distanceBetween (app, Locator.loaded) (handedFixes past)).2.alerts

/-- A location that is accepted later changes nothing of the fixes handed over before. -/
theorem Accounts.handedFixes_concat (h : Accounts distanceBetween app past state)
    (action : Action) :
    handedFixes (past ++ [action]) =
      handedFixes past ++ (action.fix? (accepted (past ++ [action]))).toList := by
  have hpast : past.filterMap (Action.fix? (accepted (past ++ [action]))) = handedFixes past :=
    List.filterMap_congr fun earlier hearlier ↦ by
      cases earlier with
      | complete reception answer =>
        simp only [Action.fix?, accepted_concat]
        rw [List.getElem?_append_left (h.answered reception answer hearlier)]
      | _ => rfl
  rw [handedFixes, List.filterMap_append, hpast]
  cases hfix : action.fix? (accepted (past ++ [action])) <;> simp [hfix]

/-- Only an answer hands a fix over. -/
theorem Accounts.handedFixes_of_isAnswer (h : Accounts distanceBetween app past state)
    (hanswer : action.isAnswer = false) : handedFixes (past ++ [action]) = handedFixes past := by
  rw [h.handedFixes_concat]
  cases action with
  | complete reception answer => cases hanswer
  | _ => exact List.append_nil _

theorem Accounts.answered_concat (h : Accounts distanceBetween app past state)
    (hanswer : action.isAnswer = false) (reception : ℕ) (answer : GeocoderAnswer)
    (hmem : .complete reception answer ∈ past ++ [action]) :
    reception < (accepted (past ++ [action])).length := by
  rw [accepted_concat, List.length_append]
  rcases List.mem_append.mp hmem with hold | hnew
  · exact Nat.lt_add_right _ (h.answered reception answer hold)
  · rw [← List.mem_singleton.mp hnew] at hanswer
    cases hanswer

theorem accounts_loaded (app : App) (authorization : AuthorizationStatus) :
    Accounts distanceBetween app [] (loaded app authorization) where
  received := rfl
  requests := fun _ hrequest ↦ by cases hrequest
  answered := fun _ _ hmem ↦ by cases hmem
  sameApp := rfl
  sameAlerts := rfl

/-- A location is accepted. -/
theorem Accounts.reverseGeocode (h : Accounts distanceBetween app past state) {location : Location}
    (haccepted : action.accepted? = some location) (hanswer : action.isAnswer = false) :
    Accounts distanceBetween app (past ++ [action]) (state.reverseGeocode location) := by
  have hlocations : accepted (past ++ [action]) = accepted past ++ [location] := by
    rw [accepted_concat, haccepted, Option.toList_some]
  have hfixes := h.handedFixes_of_isAnswer hanswer
  refine ⟨?_, fun request hrequest ↦ ?_, h.answered_concat hanswer, ?_, ?_⟩
  · rw [hlocations, List.length_append, ← h.received]
    rfl
  · rw [hlocations]
    rcases List.mem_append.mp hrequest with hold | hnew
    · have hold := h.requests request hold
      rw [List.getElem?_append_left (List.getElem?_eq_some_iff.mp hold).1]
      exact hold
    · rw [List.mem_singleton.mp hnew, h.received]
      exact List.getElem?_concat_length
  · rw [hfixes]
    exact h.sameApp
  · rw [hfixes]
    exact h.sameAlerts

/-- A request is answered. Assumes: a well formed store. -/
theorem Accounts.finishGeocode (h : Accounts distanceBetween app past state)
    (hstore : app.WellFormed) {request : GeocoderRequest} {answer : GeocoderAnswer}
    (hrequest : request ∈ state.requests)
    (hfinish : finishGeocode distanceBetween
      { state with requests := state.requests.erase request } request answer = some next) :
    Accounts distanceBetween app (past ++ [.complete request.reception answer]) next := by
  have hlocation := h.requests request hrequest
  have hlocations : accepted (past ++ [.complete request.reception answer]) = accepted past := by
    rw [accepted_concat]
    exact List.append_nil _
  obtain ⟨hupdated, hrequests, hreceived⟩ := finishGeocode_eq_some hfinish
  have hfixes : handedFixes (past ++ [.complete request.reception answer]) =
      handedFixes past ++ (fix? request.location answer).toList := by
    rw [h.handedFixes_concat, hlocations, Action.fix?, hlocation, Option.bind_some]
  have hwalk : next.app = (walk distanceBetween (app, Locator.loaded)
        (handedFixes past ++ (fix? request.location answer).toList)).1 ∧
      next.view.alerts = (walk distanceBetween (app, Locator.loaded)
        (handedFixes past ++ (fix? request.location answer).toList)).2.alerts := by
    cases hfix : fix? request.location answer with
    | none =>
      rw [hfix, Option.elim_none, Prod.mk.injEq] at hupdated
      rw [Option.toList_none, List.append_nil, hupdated.1, hupdated.2]
      exact ⟨h.sameApp, h.sameAlerts⟩
    | some fix =>
      rw [hfix, Option.elim_some] at hupdated
      obtain ⟨happ, halerts⟩ := locationUpdated_congr distanceBetween
        (hstore.walk Locator.loaded (handedFixes past)) h.sameAlerts fix
      rw [← h.sameApp] at happ halerts
      rw [Option.toList_some, walk_concat, ← h.sameApp]
      exact ⟨(congrArg Prod.fst hupdated).trans happ,
        (congrArg (fun updated ↦ updated.2.alerts) hupdated).trans halerts⟩
  rw [← hfixes] at hwalk
  refine ⟨?_, fun other hother ↦ ?_, fun reception other hmem ↦ ?_, hwalk.1, hwalk.2⟩
  · rw [hlocations, hreceived]
    exact h.received
  · rw [hlocations]
    rw [hrequests] at hother
    exact h.requests other (List.mem_of_mem_erase hother)
  · rw [hlocations]
    rcases List.mem_append.mp hmem with hold | hnew
    · exact h.answered reception other hold
    · cases List.mem_singleton.mp hnew
      exact (List.getElem?_eq_some_iff.mp hlocation).1

/-- An action that accepts no location and answers no request. -/
theorem Accounts.of_sameRecord (h : Accounts distanceBetween app past state)
    (haccepted : action.accepted? = none) (hanswer : action.isAnswer = false)
    (hsame : SameRecord state next) : Accounts distanceBetween app (past ++ [action]) next := by
  obtain ⟨happ, halerts, hrequests, hreceived⟩ := hsame
  have hlocations : accepted (past ++ [action]) = accepted past := by
    rw [accepted_concat, haccepted, Option.toList_none, List.append_nil]
  have hfixes := h.handedFixes_of_isAnswer hanswer
  refine ⟨?_, ?_, h.answered_concat hanswer, ?_, ?_⟩
  · rw [hlocations, hreceived, h.received]
  · rw [hlocations, hrequests]
    exact h.requests
  · rw [hfixes, happ, h.sameApp]
  · rw [hfixes, halerts, h.sameAlerts]

/-- Assumes: a well formed store. -/
theorem Accounts.step (h : Accounts distanceBetween app past state) (hstore : app.WellFormed)
    (hstep : Tracking.step distanceBetween state action = some next) :
    Accounts distanceBetween app (past ++ [action]) next := by
  rcases step_cases hstep with ⟨location, haccepted, hanswer, rfl⟩ |
    ⟨_, answer, request, rfl, hrequest, rfl, hfinish⟩ | ⟨haccepted, hanswer, hsame⟩
  · exact h.reverseGeocode haccepted hanswer
  · exact h.finishGeocode hstore hrequest hfinish
  · exact h.of_sameRecord haccepted hanswer hsame

/-- Assumes: a well formed store. A session does to the app what the walk of the fixes handed over
does, and shows the alerts of that walk. -/
theorem walk_of_run (hstore : app.WellFormed)
    (hrun : PartialRun.run (step distanceBetween) (loaded app authorization) actions =
      some final) :
    final.app = (walk distanceBetween (app, Locator.loaded) (handedFixes actions)).1 ∧
      final.view.alerts =
        (walk distanceBetween (app, Locator.loaded) (handedFixes actions)).2.alerts := by
  have hfinal := PartialRun.run_invariant_history
    (fun _ _ _ _ h hstep ↦ Accounts.step h hstore hstep)
    (accounts_loaded app authorization) hrun
  exact ⟨hfinal.sameApp, hfinal.sameAlerts⟩

/-- Assumes: a well formed store, and a user who is signed in. What a session does, whatever the
user taps in between and in whatever order the geocoders answer. The places of the store less than
500 m from a fix handed over are visited once each, in the order in which they are reached, with one
write for each of them that did not list the user, and nothing else of the app changes. Those that
did not list the user and whose first fix less than 500 m away is less than 100 m away are
congratulated on once each, and no other. -/
theorem session_of_run {uid : String} (hstore : app.WellFormed)
    (huser : app.currentUser = some uid)
    (hrun : PartialRun.run (step distanceBetween) (loaded app authorization) actions =
      some final) :
    final.app = app.visitAll (app.reached distanceBetween (handedFixes actions)) ∧
      (app.reached distanceBetween (handedFixes actions)).Perm (app.places.filter fun place ↦
        (handedFixes actions).any fun fix ↦
          app.distanceTo distanceBetween place fix.coordinate < 500) ∧
      final.view.alerts.Perm (app.places.filter fun place ↦
        app.accepts place && ((handedFixes actions).find? fun fix ↦
          app.distanceTo distanceBetween place fix.coordinate < 500).any fun fix ↦
            app.distanceTo distanceBetween place fix.coordinate < 100) := by
  obtain ⟨happ, halerts⟩ := walk_of_run hstore hrun
  rw [walk_fst hstore huser] at happ
  refine ⟨happ, reached_perm hstore.nodup (handedFixes actions), ?_⟩
  rw [halerts]
  exact alerts_walk_perm hstore huser rfl (handedFixes actions)

/-- A session with three reports, of which the user stops the tracking before the geocoder answers.
The answers lead within 60 m of the second place, to the middle between the two, and within 50 m of
the first place. -/
def sampleSession : List Action :=
  [.getLocation, .didUpdateLocations [⟨⟨900, 23⟩, 10⟩, ⟨⟨560, 23⟩, 10⟩],
    .didUpdateLocations [⟨⟨270, 23⟩, 10⟩], .didUpdateLocations [⟨⟨92, 23⟩, 10⟩], .stopLocation,
    .complete 0 (.placemarks (some [⟨some ["Boyana", "Sofia"]⟩])), .complete 1 .error,
    .complete 2 .error]

/-- The second place is reached first, and celebrated; the first one is reached from afar. -/
theorem session_of_run_sample :
    ∃ final, PartialRun.run (step sampleDistance) (loaded tourApp .authorizedWhenInUse)
        sampleSession = some final ∧
      final.app = tourApp.visitAll [1, 0] ∧ final.view.alerts.Perm [1] := by
  have hruns : (PartialRun.run (step sampleDistance) (loaded tourApp .authorizedWhenInUse)
      sampleSession).isSome := by
    decide +kernel
  obtain ⟨final, hrun⟩ := Option.isSome_iff_exists.mp hruns
  obtain ⟨happ, _, halerts⟩ := session_of_run wellFormed_tourApp rfl hrun
  have hreached : tourApp.reached sampleDistance (handedFixes sampleSession) = [1, 0] := by
    decide +kernel
  have hcelebrated : (tourApp.places.filter fun place ↦
      tourApp.accepts place && ((handedFixes sampleSession).find? fun fix ↦
        tourApp.distanceTo sampleDistance place fix.coordinate < 500).any fun fix ↦
          tourApp.distanceTo sampleDistance place fix.coordinate < 100) = [1] := by
    decide +kernel
  exact ⟨final, hrun, hreached ▸ happ, hcelebrated ▸ halerts⟩

/-- A fix comes from an answer. -/
theorem handedFixes_eq (actions : List Action) : handedFixes actions =
    (actions.filter Action.isAnswer).filterMap (Action.fix? (accepted actions)) := by
  rw [List.filterMap_filter]
  refine List.filterMap_congr fun action _ ↦ ?_
  cases action <;> rfl

/-- Assumes: a well formed store, and a user who is signed in. Two sessions that accept the same
locations, and in which the geocoders give the same answers, though in another order and among other
taps, failures and changes of the authorization, record the same visits: the same objects with the
same visitors, and the same writes up to their order. -/
theorem recorded_of_perm {uid : String} (hstore : app.WellFormed)
    (huser : app.currentUser = some uid) {first second : List Action} {other : Tracking}
    {otherAuthorization : AuthorizationStatus} (hlocations : accepted first = accepted second)
    (hanswers : (first.filter Action.isAnswer).Perm (second.filter Action.isAnswer))
    (hfirst : PartialRun.run (step distanceBetween) (loaded app authorization) first = some final)
    (hsecond : PartialRun.run (step distanceBetween) (loaded app otherAuthorization) second =
      some other) :
    { final.app with outbox := other.app.outbox } = other.app ∧
      final.app.outbox.Perm other.app.outbox := by
  have hfixes : (handedFixes first).Perm (handedFixes second) := by
    rw [handedFixes_eq, handedFixes_eq, hlocations]
    exact hanswers.filterMap _
  rw [(walk_of_run hstore hfirst).1, (walk_of_run hstore hsecond).1, walk_fst hstore huser,
    walk_fst hstore huser]
  exact App.visitAll_perm (reached_perm_of_perm hstore.nodup hfixes)

end History

/-- The user comes within 300 m and then within 50 m of a place, and the geocoders answer in the
order of the reports or in the other one. -/
def sampleAnswers (first second : ℕ) : List Action :=
  [.getLocation, .didUpdateLocations [⟨⟨342, 23⟩, 10⟩], .didUpdateLocations [⟨⟨92, 23⟩, 10⟩],
    .complete first .error, .complete second .error]

/-- The two orders record the same visit, and only one of them congratulates. -/
theorem recorded_of_perm_sample :
    ∃ inOrder reversed,
      PartialRun.run (step sampleDistance) (loaded sampleApp .authorizedWhenInUse)
          (sampleAnswers 0 1) = some inOrder ∧
        PartialRun.run (step sampleDistance) (loaded sampleApp .authorizedWhenInUse)
          (sampleAnswers 1 0) = some reversed ∧
        inOrder.view.alerts = [] ∧ reversed.view.alerts = [0] ∧
        { inOrder.app with outbox := reversed.app.outbox } = reversed.app ∧
          inOrder.app.outbox.Perm reversed.app.outbox := by
  have hfirst : (PartialRun.run (step sampleDistance) (loaded sampleApp .authorizedWhenInUse)
      (sampleAnswers 0 1)).map (fun final ↦ final.view.alerts) = some [] := by
    decide +kernel
  have hsecond : (PartialRun.run (step sampleDistance) (loaded sampleApp .authorizedWhenInUse)
      (sampleAnswers 1 0)).map (fun final ↦ final.view.alerts) = some [0] := by
    decide +kernel
  obtain ⟨inOrder, hinOrder, hnone⟩ := Option.map_eq_some_iff.mp hfirst
  obtain ⟨reversed, hreversed, hone⟩ := Option.map_eq_some_iff.mp hsecond
  exact ⟨inOrder, reversed, hinOrder, hreversed, hnone, hone,
    recorded_of_perm wellFormed_sampleApp rfl (by decide) (by decide) hinOrder hreversed⟩

end Tracking

end BeenHere
