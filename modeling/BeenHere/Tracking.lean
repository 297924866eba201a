import BeenHere.Library.PartialRun
import BeenHere.Locator
import Mathlib.Data.List.Sort

/-!
# Tracking

`LocationManager` and the actions of `LocatorViewController` that start and stop it. While tracking
is on, CoreLocation reports locations; an accurate one is sent to a geocoder of its own, and the fix
is handed to `locationUpdated` when that geocoder answers. Stopping ends the reports but not the
requests under way, and the geocoders answer in any order.

Nothing between the answer and `locationUpdated` looks at the state: every answer with an error or a
placemark hands its fix over (`handed_of_run`). The fixes therefore come in the order in which they
were received, and none comes while tracking is stopped, exactly when the answers do
(`inOrder_iff`).
-/

set_option autoImplicit false
set_option relaxedAutoImplicit false

namespace BeenHere

open ObjectHeap

/-- `CLAuthorizationStatus`; `other` stands for the cases that only the `default` sees. -/
inductive AuthorizationStatus
  | denied
  | authorizedWhenInUse
  | notDetermined
  | other
  deriving DecidableEq

/-- A `CLLocation`. -/
structure Location where
  coordinate : Point
  horizontalAccuracy : ℚ
  deriving DecidableEq

/-- A `CLPlacemark`: the entry `FormattedAddressLines` of its address dictionary. -/
structure Placemark where
  formattedAddressLines : Option (List String)
  deriving DecidableEq

/-- The arguments of the completion handler of a geocoder. -/
inductive GeocoderAnswer
  | error
  | placemarks (found : Option (List Placemark))
  deriving DecidableEq

/-- An error, or at least one placemark. -/
def GeocoderAnswer.handsOver : GeocoderAnswer → Bool
  | .error => true
  | .placemarks found => 0 < (found.getD []).length

/-- An unanswered `reverseGeocodeLocation`. The receptions of accepted locations are numbered from
zero. -/
structure GeocoderRequest where
  reception : ℕ
  location : Location
  deriving DecidableEq

/-- What a run records: that tracking was started or stopped, and that the fix of a reception was
handed to `locationUpdated`. -/
inductive Mark
  | start
  | stop
  | handed (reception : ℕ)
  deriving DecidableEq

/-- The reception of the fix that a mark hands over. -/
def Mark.reception? : Mark → Option ℕ
  | .handed reception => some reception
  | _ => none

/-- The app, the view and the `LocationManager` with its requests. `received` counts the accepted
locations, and `log` is what has happened so far, oldest first. -/
structure Tracking where
  app : App
  view : Locator
  authorization : AuthorizationStatus
  requests : List GeocoderRequest
  received : ℕ
  log : List Mark

namespace Tracking

/-- `didUpdateLocations` is what CoreLocation reports, and `complete` the answer of the geocoder to
the location of a reception. -/
inductive Action
  | getLocation
  | stopLocation
  | viewWillDisappear
  | viewDidAppear
  | didChangeAuthorization (status : AuthorizationStatus)
  | didFailWithError
  | didUpdateLocations (locations : List Location)
  | complete (reception : ℕ) (answer : GeocoderAnswer)
  deriving DecidableEq

/-- The view after `viewDidLoad`. -/
def loaded (app : App) (authorization : AuthorizationStatus) : Tracking where
  app := app
  view := Locator.loaded
  authorization := authorization
  requests := []
  received := 0
  log := []

/-- `locator.startUpdatingLocation()`. -/
def startUpdatingLocation (state : Tracking) : Tracking :=
  { state with view := { state.view with tracking := true }, log := state.log ++ [.start] }

/-- `locator.stopUpdatingLocation()`. -/
def stopUpdatingLocation (state : Tracking) : Tracking :=
  { state with view := { state.view with tracking := false }, log := state.log ++ [.stop] }

/-- `checkPermission`. A request for permission is answered by `didChangeAuthorization`. -/
def checkPermission (state : Tracking) : Tracking :=
  match state.authorization with
  | .authorizedWhenInUse => state.startUpdatingLocation
  | _ => state

def setRotating (state : Tracking) (rotating : Bool) : Tracking :=
  { state with view := { state.view with rotating } }

/-- `getLocationAction`, and `startLocationUpdates`, which does the same. -/
def getLocationAction (state : Tracking) : Tracking := (state.setRotating true).checkPermission

/-- `stopLocationAction`. -/
def stopLocationAction (state : Tracking) : Tracking :=
  (state.setRotating false).stopUpdatingLocation

/-- `locationFailed`. -/
def locationFailed (state : Tracking) : Tracking :=
  { state with
    view := { state.view with rotating := false, placeLabel := some "Something went wrong" } }

/-- `reverseGeocode`, up to the answer. -/
def reverseGeocode (state : Tracking) (location : Location) : Tracking :=
  { state with
    requests := state.requests ++ [⟨state.received, location⟩]
    received := state.received + 1 }

/-- `didUpdateLocations`. -/
def didUpdateLocations (state : Tracking) (locations : List Location) : Tracking :=
  match locations.getLast? with
  | some newLocation =>
    if newLocation.horizontalAccuracy < 1500 then state.reverseGeocode newLocation else state
  | none => state

section Step

variable (distanceBetween : Point → Point → ℚ)

/-- Calls `locationUpdated`, which stops tracking where it shows an alert. -/
def handOver (state : Tracking) (request : GeocoderRequest) (address : Option String) : Tracking :=
  let updated := locationUpdated distanceBetween state.app state.view
    ⟨request.location.coordinate, address⟩
  { state with
    app := updated.1
    view := updated.2
    log := state.log ++ [.handed request.reception] ++
      if state.view.alerts.length < updated.2.alerts.length then [.stop] else [] }

/-- The completion handler of `reverseGeocode`. The address lines are forced. -/
def finishGeocode (state : Tracking) (request : GeocoderRequest) : GeocoderAnswer → Option Tracking
  | .error => some (state.handOver distanceBetween request none)
  | .placemarks found =>
    match found.getD [] with
    | [] => some state
    | placemark :: _ => placemark.formattedAddressLines.map fun lines ↦
        state.handOver distanceBetween request (some (", ".intercalate lines))

def step (state : Tracking) : Action → Option Tracking
  | .getLocation => some state.getLocationAction
  | .stopLocation => some state.stopLocationAction
  | .viewWillDisappear => some state.stopUpdatingLocation
  | .viewDidAppear => some { state with view := { state.view with placeLabel := some "" } }
  | .didChangeAuthorization status =>
    let changed := { state with authorization := status }
    some (if status = .authorizedWhenInUse then changed.getLocationAction else changed)
  | .didFailWithError => some state.locationFailed
  | .didUpdateLocations locations =>
    if state.view.tracking then some (state.didUpdateLocations locations) else none
  | .complete reception answer =>
    (state.requests.find? fun request ↦ request.reception = reception).bind fun request ↦
      finishGeocode distanceBetween { state with requests := state.requests.erase request }
        request answer

end Step

/-! ### Fixes in order, and none after a stop -/

/-- The receptions of the fixes handed over, oldest first. -/
def handed (state : Tracking) : List ℕ := state.log.filterMap Mark.reception?

/-- Tracking was started since it was last stopped. -/
def Running (log : List Mark) : Prop :=
  ∀ before between, log = before ++ .stop :: between → .start ∈ between

/-- No fix is handed over between a stop and the next start. -/
def SilentWhenStopped (log : List Mark) : Prop :=
  ∀ before between reception after,
    log = before ++ .stop :: (between ++ .handed reception :: after) → .start ∈ between

/-- The fixes handed over are a subsequence of the fixes received, and none is handed over while
tracking is stopped. -/
structure InOrder (state : Tracking) : Prop where
  order : state.handed.Sublist (List.range state.received)
  silent : SilentWhenStopped state.log

/-- The reception whose fix an action hands over. -/
def Action.answered : Action → Option ℕ
  | .complete reception answer => if answer.handsOver then some reception else none
  | _ => none

/-- An answer that hands its fix over comes while tracking is on. -/
def WhileTracking (state : Tracking) (action : Action) : Prop :=
  action.answered.isSome → state.view.tracking = true

instance : DecidableRel WhileTracking := fun state action ↦
  inferInstanceAs (Decidable (action.answered.isSome → state.view.tracking = true))

/-! ### Logs -/

theorem concat_eq_append_cons {log before between : List Mark} {mark first : Mark}
    (h : log ++ [mark] = before ++ first :: between) :
    between = [] ∧ mark = first ∧ log = before ∨
      ∃ earlier, between = earlier ++ [mark] ∧ log = before ++ first :: earlier := by
  rcases List.eq_nil_or_concat between with rfl | ⟨earlier, last, rfl⟩
  · obtain ⟨hlog, hmark⟩ := List.append_inj' h rfl
    exact Or.inl ⟨rfl, List.singleton_inj.mp hmark, hlog⟩
  · rw [List.concat_eq_append, ← List.cons_append, ← List.append_assoc] at h
    obtain ⟨hlog, hmark⟩ := List.append_inj' h rfl
    rw [List.concat_eq_append, List.singleton_inj.mp hmark]
    exact Or.inr ⟨earlier, rfl, hlog⟩

variable {log : List Mark} {mark : Mark} {reception : ℕ}

theorem running_start (log : List Mark) : Running (log ++ [.start]) := by
  intro before between hlog
  rcases concat_eq_append_cons hlog with ⟨_, hmark, _⟩ | ⟨earlier, rfl, _⟩
  · cases hmark
  · exact List.mem_append_right _ List.mem_cons_self

theorem not_running_stop (log : List Mark) : ¬ Running (log ++ [.stop]) :=
  fun h ↦ List.not_mem_nil (h log [] rfl)

theorem running_handed : Running (log ++ [.handed reception]) ↔ Running log := by
  constructor
  · intro h before between hlog
    have hmem := h before (between ++ [.handed reception]) (by rw [hlog, List.append_assoc]; rfl)
    simpa using hmem
  · intro h before between hlog
    rcases concat_eq_append_cons hlog with ⟨_, hmark, _⟩ | ⟨earlier, rfl, hbefore⟩
    · cases hmark
    · exact List.mem_append_left _ (h before earlier hbefore)

/-- A further mark may stand in a log if it is no hand-over or tracking is running. -/
theorem silentWhenStopped_concat : SilentWhenStopped (log ++ [mark]) ↔
    SilentWhenStopped log ∧ (mark.reception?.isSome → Running log) := by
  constructor
  · refine fun h ↦ ⟨fun before between reception after hlog ↦ ?_,
      fun hmark before between hlog ↦ ?_⟩
    · refine h before between reception (after ++ [mark]) ?_
      rw [hlog]
      simp
    · cases mark with
      | handed reception => exact h before between reception [] (by rw [hlog]; simp)
      | start | stop => cases hmark
  · rintro ⟨hlog, hrunning⟩ before between reception after heq
    rw [← List.cons_append, ← List.append_assoc] at heq
    rcases concat_eq_append_cons heq with ⟨_, rfl, hbefore⟩ | ⟨earlier, _, hbefore⟩
    · exact hrunning rfl before between hbefore
    · exact hlog before between reception earlier (by rw [hbefore]; simp)

theorem silentWhenStopped_append_of_switches {switches : List Mark}
    (hswitches : ∀ mark ∈ switches, mark.reception? = none) :
    SilentWhenStopped (log ++ switches) ↔ SilentWhenStopped log := by
  induction switches generalizing log with
  | nil => rw [List.append_nil]
  | cons mark rest ih =>
    have hmark : mark.reception? = none := hswitches mark List.mem_cons_self
    rw [List.append_cons, ih fun other hother ↦ hswitches other (List.mem_cons_of_mem _ hother),
      silentWhenStopped_concat, hmark]
    simp

/-- A list of numbers below a bound is a subsequence of those numbers if it is increasing. -/
theorem sublist_range_iff {receptions : List ℕ} {received : ℕ}
    (hbound : ∀ reception ∈ receptions, reception < received) :
    receptions.Sublist (List.range received) ↔ receptions.Pairwise (· < ·) := by
  refine ⟨fun hsublist ↦ List.Pairwise.sublist hsublist List.pairwise_lt_range,
    fun hpairwise ↦ ?_⟩
  refine List.sublist_of_subperm_of_sortedLE (hpairwise.nodup.subperm fun reception hmem ↦ ?_)
    hpairwise.sortedLT.sortedLE (List.sortedLT_range received).sortedLE
  exact List.mem_range.mpr (hbound reception hmem)

/-! ### What a step does -/

section Step

variable {distanceBetween : Point → Point → ℚ} {state next : Tracking} {action : Action}

/-- A call of `locationUpdated`, or of its loop, that started from a view: it has shown no alert and
left tracking as it was, or it has shown one and stopped tracking. -/
def StopsWithAlert (view updated : Locator) : Prop :=
  updated.tracking = view.tracking ∧ updated.alerts.length = view.alerts.length ∨
    updated.tracking = false ∧ view.alerts.length < updated.alerts.length

theorem stopsWithAlert_scanPlace (distanceBetween : Point → Point → ℚ) (location : Point)
    (scan : Scan) (place : Ref) :
    StopsWithAlert scan.view (scanPlace distanceBetween location scan place).view := by
  by_cases hring : scan.app.distanceTo distanceBetween place location < 500
  · simp only [scanPlace, if_pos hring]
    split
    · exact Or.inr ⟨rfl, by simp⟩
    · exact Or.inl ⟨rfl, rfl⟩
  · simp only [scanPlace, if_neg hring]
    exact Or.inl ⟨rfl, rfl⟩

theorem StopsWithAlert.trans {first second third : Locator} (hfirst : StopsWithAlert first second)
    (hsecond : StopsWithAlert second third) : StopsWithAlert first third := by
  rcases hfirst with ⟨htracking, hlength⟩ | ⟨htracking, hlength⟩ <;>
    rcases hsecond with ⟨hlater, hmore⟩ | ⟨hlater, hmore⟩
  · exact Or.inl ⟨hlater.trans htracking, hmore.trans hlength⟩
  · exact Or.inr ⟨hlater, hlength ▸ hmore⟩
  · exact Or.inr ⟨hlater.trans htracking, hmore ▸ hlength⟩
  · exact Or.inr ⟨hlater, hlength.trans hmore⟩

theorem stopsWithAlert_locationUpdated (distanceBetween : Point → Point → ℚ) (app : App)
    (view : Locator) (fix : Fix) :
    StopsWithAlert view (locationUpdated distanceBetween app view fix).2 := by
  have hloop (places : List Ref) (scan : Scan) : StopsWithAlert scan.view
      (places.foldl (scanPlace distanceBetween fix.coordinate) scan).view := by
    induction places generalizing scan with
    | nil => exact Or.inl ⟨rfl, rfl⟩
    | cons place rest ih =>
      exact (stopsWithAlert_scanPlace distanceBetween fix.coordinate scan place).trans (ih _)
  exact hloop app.places _

/-- The completion handler hands the fix over, or nothing happens. -/
theorem exists_of_finishGeocode {request : GeocoderRequest} {answer : GeocoderAnswer}
    (h : finishGeocode distanceBetween state request answer = some next) :
    answer.handsOver = true ∧
        (∃ address, next = handOver distanceBetween state request address) ∨
      answer.handsOver = false ∧ next = state := by
  cases answer with
  | error => exact Or.inl ⟨rfl, none, (Option.some.inj h).symm⟩
  | placemarks found =>
    simp only [finishGeocode] at h
    cases hfound : found.getD [] with
    | nil =>
      rw [hfound] at h
      exact Or.inr ⟨by simp [GeocoderAnswer.handsOver, hfound], (Option.some.inj h).symm⟩
    | cons placemark rest =>
      rw [hfound] at h
      obtain ⟨lines, _, hnext⟩ := Option.map_eq_some_iff.mp h
      exact Or.inl ⟨by simp [GeocoderAnswer.handsOver, hfound], _, hnext.symm⟩

/-- Requests and hand-overs are numbered below the count of the receptions, tracking is on only if
it was started since it was last stopped, and before the first start nothing is under way. -/
structure Invariant (state : Tracking) : Prop where
  requests : ∀ request ∈ state.requests, request.reception < state.received
  handed : ∀ reception ∈ state.handed, reception < state.received
  running : state.view.tracking = true → Running state.log
  idle : state.view.tracking = false → Running state.log → state.requests = []

theorem Invariant.setView (h : Invariant state) {view : Locator}
    (hview : view.tracking = state.view.tracking) : Invariant { state with view } :=
  ⟨h.requests, h.handed, fun htracking ↦ h.running (hview ▸ htracking),
    fun htracking ↦ h.idle (hview ▸ htracking)⟩

theorem handed_eq_of_log {mark : Mark} (hmark : mark.reception? = none)
    (hlog : next.log = state.log ++ [mark]) : next.handed = state.handed := by
  simp [Tracking.handed, hlog, hmark]

theorem Invariant.startUpdatingLocation (h : Invariant state) :
    Invariant state.startUpdatingLocation where
  requests := h.requests
  handed := by
    have hhanded : state.startUpdatingLocation.handed = state.handed := handed_eq_of_log rfl rfl
    rw [hhanded]
    exact h.handed
  running := fun _ ↦ running_start state.log
  idle := fun htracking ↦ by cases htracking

theorem Invariant.stopUpdatingLocation (h : Invariant state) :
    Invariant state.stopUpdatingLocation where
  requests := h.requests
  handed := by
    have hhanded : state.stopUpdatingLocation.handed = state.handed := handed_eq_of_log rfl rfl
    rw [hhanded]
    exact h.handed
  running := fun htracking ↦ by cases htracking
  idle := fun _ hrunning ↦ absurd hrunning (not_running_stop state.log)

/-- A fix is handed over whose request is no longer under way. -/
theorem Invariant.handOver (h : Invariant state) {request : GeocoderRequest}
    (hrequest : request ∈ state.requests) (address : Option String) :
    Invariant (Tracking.handOver distanceBetween
      { state with requests := state.requests.erase request } request address) := by
  have hupdated := stopsWithAlert_locationUpdated distanceBetween state.app state.view
    ⟨request.location.coordinate, address⟩
  have hrunning : Running (state.log ++ [.handed request.reception]) ↔ Running state.log :=
    running_handed
  have hidle : state.view.tracking = false → ¬ Running state.log := fun htracking hlog ↦ by
    rw [h.idle htracking hlog] at hrequest
    cases hrequest
  refine ⟨fun other hother ↦ h.requests other (List.mem_of_mem_erase hother),
    fun reception hmem ↦ ?_, fun htracking ↦ ?_, fun htracking hlog ↦ ?_⟩
  · have hhanded : reception ∈ state.handed ∨ reception = request.reception := by
      simp only [Tracking.handed, Tracking.handOver, List.filterMap_append, List.mem_append] at hmem
      rcases hmem with (hold | hnew) | hswitch
      · exact Or.inl hold
      · exact Or.inr (List.mem_singleton.mp hnew)
      · split at hswitch <;> cases hswitch
    rcases hhanded with hold | rfl
    · exact h.handed reception hold
    · exact h.requests request hrequest
  · rcases hupdated with ⟨hsame, hlength⟩ | ⟨hstopped, _⟩
    · simp only [Tracking.handOver, hlength, Nat.lt_irrefl, if_false, List.append_nil, hrunning]
      exact h.running (hsame ▸ htracking)
    · exact absurd (hstopped.symm.trans htracking) Bool.false_ne_true
  · rcases hupdated with ⟨hsame, hlength⟩ | ⟨_, hlength⟩
    · simp only [Tracking.handOver, hlength, Nat.lt_irrefl, if_false, List.append_nil, hrunning]
        at hlog
      exact absurd hlog (hidle (hsame ▸ htracking))
    · simp only [Tracking.handOver, if_pos hlength] at hlog
      exact absurd hlog (not_running_stop _)

/-- Starting, or asking for a permission. -/
theorem Invariant.getLocationAction (h : Invariant state) : Invariant state.getLocationAction := by
  have hrotating : Invariant (state.setRotating true) := h.setView rfl
  unfold Tracking.getLocationAction checkPermission
  split
  · exact hrotating.startUpdatingLocation
  · exact hrotating

/-- A report of CoreLocation, which comes only while tracking is on. -/
theorem Invariant.didUpdateLocations (h : Invariant state) (htracking : state.view.tracking = true)
    (locations : List Location) : Invariant (state.didUpdateLocations locations) := by
  unfold Tracking.didUpdateLocations
  split
  · split_ifs
    · refine ⟨fun request hrequest ↦ ?_,
        fun reception hmem ↦ Nat.lt_succ_of_lt (h.handed reception hmem), h.running,
        fun hoff ↦ Bool.noConfusion (htracking.symm.trans hoff)⟩
      rcases List.mem_append.mp hrequest with hold | hnew
      · exact Nat.lt_succ_of_lt (h.requests request hold)
      · rw [List.mem_singleton.mp hnew]
        exact Nat.lt_succ_self _
    · exact h
  · exact h

theorem Invariant.step (h : Invariant state)
    (hstep : Tracking.step distanceBetween state action = some next) : Invariant next := by
  cases action with
  | getLocation => exact Option.some.inj hstep ▸ h.getLocationAction
  | stopLocation =>
    have hrotating : Invariant (state.setRotating false) := h.setView rfl
    exact Option.some.inj hstep ▸ hrotating.stopUpdatingLocation
  | viewWillDisappear => exact Option.some.inj hstep ▸ h.stopUpdatingLocation
  | viewDidAppear => exact Option.some.inj hstep ▸ h.setView rfl
  | didChangeAuthorization status =>
    have hchanged : Invariant { state with authorization := status } :=
      ⟨h.requests, h.handed, h.running, h.idle⟩
    obtain rfl := Option.some.inj hstep
    split_ifs
    · exact hchanged.getLocationAction
    · exact hchanged
  | didFailWithError => exact Option.some.inj hstep ▸ h.setView rfl
  | didUpdateLocations locations =>
    simp only [Tracking.step] at hstep
    split_ifs at hstep with htracking
    exact Option.some.inj hstep ▸ h.didUpdateLocations htracking locations
  | complete reception answer =>
    obtain ⟨request, hrequest, hfinish⟩ := Option.bind_eq_some_iff.mp hstep
    have hmem := List.mem_of_find?_eq_some hrequest
    rcases exists_of_finishGeocode hfinish with ⟨_, address, rfl⟩ | ⟨_, rfl⟩
    · exact h.handOver hmem address
    · refine ⟨fun other hother ↦ h.requests other (List.mem_of_mem_erase hother), h.handed,
        h.running, fun hoff hlog ↦ ?_⟩
      rw [h.idle hoff hlog] at hmem
      cases hmem

/-- What a step adds to the log: the hand-over of the answer, and then at most starts and stops. -/
theorem exists_log_of_step (hstep : Tracking.step distanceBetween state action = some next) :
    ∃ switches, (∀ mark ∈ switches, Mark.reception? mark = none) ∧
      next.log = state.log ++ action.answered.toList.map .handed ++ switches := by
  have hstart (other : Tracking) (hlog : other.log = state.log) : ∃ switches,
      (∀ mark ∈ switches, Mark.reception? mark = none) ∧
        other.getLocationAction.log = state.log ++ [] ++ switches := by
    unfold Tracking.getLocationAction checkPermission
    split
    · exact ⟨[.start], by simp [Mark.reception?],
        by simp [startUpdatingLocation, setRotating, hlog]⟩
    · exact ⟨[], by simp, by simp [setRotating, hlog]⟩
  cases action with
  | getLocation => exact Option.some.inj hstep ▸ hstart state rfl
  | stopLocation | viewWillDisappear =>
    obtain rfl := Option.some.inj hstep
    exact ⟨[.stop], by simp [Mark.reception?],
      by simp [stopLocationAction, stopUpdatingLocation, setRotating, Action.answered]⟩
  | viewDidAppear | didFailWithError =>
    obtain rfl := Option.some.inj hstep
    exact ⟨[], by simp, by simp [locationFailed, Action.answered]⟩
  | didChangeAuthorization status =>
    obtain rfl := Option.some.inj hstep
    split_ifs
    · exact hstart _ rfl
    · exact ⟨[], by simp, by simp [Action.answered]⟩
  | didUpdateLocations locations =>
    simp only [Tracking.step] at hstep
    split_ifs at hstep
    obtain rfl := Option.some.inj hstep
    refine ⟨[], by simp, ?_⟩
    unfold Tracking.didUpdateLocations
    split
    · split_ifs <;> simp [reverseGeocode, Action.answered]
    · simp [Action.answered]
  | complete reception answer =>
    obtain ⟨request, hrequest, hfinish⟩ := Option.bind_eq_some_iff.mp hstep
    have hreception : request.reception = reception := by
      simpa using List.find?_some hrequest
    rcases exists_of_finishGeocode hfinish with ⟨hanswer, address, rfl⟩ | ⟨hanswer, rfl⟩
    · refine ⟨if state.view.alerts.length < (locationUpdated distanceBetween state.app state.view
          ⟨request.location.coordinate, address⟩).2.alerts.length then [.stop] else [],
        fun mark hmark ↦ ?_, by simp [handOver, Action.answered, hanswer, hreception]⟩
      split at hmark
      · rw [List.mem_singleton.mp hmark]
        rfl
      · cases hmark
    · exact ⟨[], by simp, by simp [Action.answered, hanswer]⟩

/-- The fixes that a step hands over. -/
theorem handed_of_step (hstep : Tracking.step distanceBetween state action = some next) :
    next.handed = state.handed ++ action.answered.toList := by
  obtain ⟨switches, hswitches, hlog⟩ := exists_log_of_step hstep
  have hnone : switches.filterMap Mark.reception? = [] := List.filterMap_eq_nil_iff.mpr hswitches
  have hhanded : (action.answered.toList.map Mark.handed).filterMap Mark.reception? =
      action.answered.toList := by
    cases action.answered <;> rfl
  rw [handed, hlog, List.filterMap_append, List.filterMap_append, hnone, hhanded, List.append_nil,
    handed]

/-- A step keeps the silence exactly if it hands nothing over while tracking is stopped. -/
theorem silentWhenStopped_step (h : Invariant state)
    (hstep : Tracking.step distanceBetween state action = some next) :
    SilentWhenStopped next.log ↔ SilentWhenStopped state.log ∧ WhileTracking state action := by
  obtain ⟨switches, hswitches, hlog⟩ := exists_log_of_step hstep
  rw [hlog, silentWhenStopped_append_of_switches hswitches, WhileTracking]
  cases hanswered : action.answered with
  | none => simp
  | some reception =>
    have hpending : state.requests ≠ [] := by
      intro hempty
      cases action with
      | complete other answer =>
        obtain ⟨request, hrequest, _⟩ := Option.bind_eq_some_iff.mp hstep
        rw [hempty] at hrequest
        cases hrequest
      | _ => cases hanswered
    have hrunning : Running state.log ↔ state.view.tracking = true := by
      refine ⟨fun hlog ↦ ?_, h.running⟩
      by_contra hoff
      exact hpending (h.idle (Bool.eq_false_iff.mpr hoff) hlog)
    rw [Option.toList_some, List.map_singleton, silentWhenStopped_concat, hrunning]
    simp [Mark.reception?]

end Step

/-! ### Runs -/

theorem invariant_loaded (app : App) (authorization : AuthorizationStatus) :
    Invariant (loaded app authorization) where
  requests := fun _ hrequest ↦ by cases hrequest
  handed := fun _ hreception ↦ by cases hreception
  running := fun htracking ↦ by cases htracking
  idle := fun _ _ ↦ rfl

section Run

variable {distanceBetween : Point → Point → ℚ} {state final : Tracking} {actions : List Action}
variable {app : App} {authorization : AuthorizationStatus}

/-- A run hands over the fixes of all its answers with an error or a placemark. -/
theorem handed_of_run (hrun : PartialRun.run (step distanceBetween) state actions = some final) :
    final.handed = state.handed ++ actions.filterMap Action.answered := by
  induction actions generalizing state with
  | nil =>
    rw [PartialRun.run_nil, Option.some.injEq] at hrun
    rw [hrun, List.filterMap_nil, List.append_nil]
  | cons action rest ih =>
    obtain ⟨next, hstep, hrest⟩ := PartialRun.run_cons_eq_some.mp hrun
    rw [ih hrest, handed_of_step hstep, List.filterMap_cons, List.append_assoc]
    cases action.answered <;> rfl

/-- No fix is handed over while tracking is stopped exactly if every answer that hands one over
comes while tracking is on. -/
theorem silentWhenStopped_iff
    (hrun : PartialRun.run (step distanceBetween) (loaded app authorization) actions = some final) :
    SilentWhenStopped final.log ↔
      PartialRun.Guarded (step distanceBetween) WhileTracking (loaded app authorization)
        actions := by
  have hstart : SilentWhenStopped (loaded app authorization).log := fun before between _ _ hlog ↦ by
    simp [loaded] at hlog
  have hguarded := PartialRun.throughout_iff_guarded
    (fun _ _ _ hstate _ hstep ↦ Invariant.step hstate hstep)
    (fun _ _ _ hstate hsilent hstep ↦
      (silentWhenStopped_step hstate hstep).trans (and_iff_right hsilent))
    (invariant_loaded app authorization) hstart hrun
  have hthroughout := PartialRun.throughout_iff_final
    (fun _ _ _ hstate hstep ↦ Invariant.step hstate hstep)
    (fun _ _ _ hstate hstep hsilent ↦ ((silentWhenStopped_step hstate hstep).mp hsilent).1)
    (invariant_loaded app authorization) hrun
  exact hthroughout.symm.trans hguarded

/-- Location fixes are processed in order and never after tracking stops, exactly if the answers
with an error or a placemark come in the order of the receptions and each while tracking is on. -/
theorem inOrder_iff
    (hrun : PartialRun.run (step distanceBetween) (loaded app authorization) actions = some final) :
    final.InOrder ↔
      (actions.filterMap Action.answered).Pairwise (· < ·) ∧
        PartialRun.Guarded (step distanceBetween) WhileTracking (loaded app authorization)
          actions := by
  have hfinal : Invariant final :=
    PartialRun.run_invariant_on (fun _ _ _ _ hstate hstep ↦ Invariant.step hstate hstep)
      (invariant_loaded app authorization) hrun
  have horder : final.handed.Sublist (List.range final.received) ↔
      (actions.filterMap Action.answered).Pairwise (· < ·) := by
    rw [sublist_range_iff hfinal.handed, handed_of_run hrun]
    rfl
  exact ⟨fun h ↦ ⟨horder.mp h.order, (silentWhenStopped_iff hrun).mp h.silent⟩,
    fun h ↦ ⟨horder.mpr h.1, (silentWhenStopped_iff hrun).mpr h.2⟩⟩

end Run

/-- A location at the place of `sampleApp`. -/
def sampleLocation : Location := ⟨⟨42, 23⟩, 10⟩

/-- The answer to the first location is empty, and the answer to the second records a visit. -/
theorem inOrder_iff_sample :
    ∃ final, PartialRun.run (step sampleDistance) (loaded sampleApp .authorizedWhenInUse)
        [.getLocation, .didUpdateLocations [sampleLocation], .didUpdateLocations [sampleLocation],
          .complete 1 .error, .complete 0 (.placemarks none)] = some final ∧
      final.log = [.start, .handed 1, .stop] ∧ final.InOrder := by
  have hruns : (PartialRun.run (step sampleDistance) (loaded sampleApp .authorizedWhenInUse)
      [.getLocation, .didUpdateLocations [sampleLocation], .didUpdateLocations [sampleLocation],
        .complete 1 .error, .complete 0 (.placemarks none)]).map (fun final ↦
      decide (final.log = [.start, .handed 1, .stop])) = some true := by
    decide +kernel
  obtain ⟨final, hrun, hlog⟩ := Option.map_eq_some_iff.mp hruns
  exact ⟨final, hrun, of_decide_eq_true hlog,
    (inOrder_iff hrun).mpr ⟨by decide, by decide +kernel⟩⟩

/-- Of two requests under way the later is answered first. And an answer that comes after the Stop
button hands its fix over, which records a visit. -/
theorem inOrder_counterexample :
    (∃ final, PartialRun.run (step sampleDistance) (loaded sampleApp .authorizedWhenInUse)
        [.getLocation, .didUpdateLocations [⟨⟨900, 23⟩, 10⟩], .didUpdateLocations [⟨⟨700, 23⟩, 10⟩],
          .complete 1 .error, .complete 0 .error] = some final ∧
      final.handed = [1, 0] ∧ final.received = 2 ∧ ¬ final.InOrder) ∧
    ∃ final, PartialRun.run (step sampleDistance) (loaded sampleApp .authorizedWhenInUse)
        [.getLocation, .didUpdateLocations [sampleLocation], .stopLocation,
          .complete 0 (.placemarks (some [⟨some ["Boyana", "Sofia"]⟩]))] = some final ∧
      final.log = [.start, .stop, .handed 0, .stop] ∧ final.view.alerts = [0] ∧
      ¬ final.InOrder := by
  refine ⟨?_, ?_⟩
  · have hruns : (PartialRun.run (step sampleDistance) (loaded sampleApp .authorizedWhenInUse)
        [.getLocation, .didUpdateLocations [⟨⟨900, 23⟩, 10⟩], .didUpdateLocations [⟨⟨700, 23⟩, 10⟩],
          .complete 1 .error, .complete 0 .error]).map (fun final ↦
        decide (final.handed = [1, 0] ∧ final.received = 2)) = some true := by
      decide +kernel
    obtain ⟨final, hrun, hfinal⟩ := Option.map_eq_some_iff.mp hruns
    obtain ⟨hhanded, hreceived⟩ := of_decide_eq_true hfinal
    refine ⟨final, hrun, hhanded, hreceived, fun h ↦ ?_⟩
    have horder := h.order
    rw [hhanded, hreceived] at horder
    exact absurd horder (by decide)
  · have hruns : (PartialRun.run (step sampleDistance) (loaded sampleApp .authorizedWhenInUse)
        [.getLocation, .didUpdateLocations [sampleLocation], .stopLocation,
          .complete 0 (.placemarks (some [⟨some ["Boyana", "Sofia"]⟩]))]).map (fun final ↦
        decide (final.log = [.start, .stop, .handed 0, .stop] ∧ final.view.alerts = [0])) =
        some true := by
      decide +kernel
    obtain ⟨final, hrun, hfinal⟩ := Option.map_eq_some_iff.mp hruns
    obtain ⟨hlog, halerts⟩ := of_decide_eq_true hfinal
    refine ⟨final, hrun, hlog, halerts, fun h ↦ ?_⟩
    have hstart := h.silent [.start] [] 0 [.stop] hlog
    cases hstart

end Tracking

end BeenHere
