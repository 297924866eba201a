import BeenHere.App
import BeenHere.PlaceRecord

/-!
# The locator

`LocatorViewController.locationUpdated` and the record it keeps. A fix shows the places on the map,
visits every place of the store that is less than 500 m away, and congratulates on a visit that
succeeds less than 100 m away. The distance is what `LocationManager.distanceBetween` returns, an
arbitrary function of two points.

For one place a walk is a small machine (`Encounter`): `meet` is one fix at a distance. It is
what `locationUpdated` does to every place of the store (`encounter_locationUpdated`), and hence
what a walk does (`encounter_walk`). The visit stands in the same condition as the 100 m test, to
its left, and under the 500 m test. A walk therefore records and celebrates the visits within 100 m
exactly when, for every place, the first fix within 500 m of it is within 100 m of it
(`visitsExact_iff`); coming closer step by step records the visit on the outer ring and celebrates
nothing (`visitsExact_counterexample`).
-/

set_option autoImplicit false
set_option relaxedAutoImplicit false

namespace BeenHere

open ObjectHeap

/-- A `CGPoint` made of a latitude and a longitude. -/
structure Point where
  latitude : ℚ
  longitude : ℚ
  deriving DecidableEq

/-- `Places.PlaceLocation`, a place annotation of the map. -/
structure PlaceLocation where
  title : String
  coordinate : Point
  deriving DecidableEq

/-- The arguments of `locationUpdated`: a location, and `address["address"]` if it is set. -/
structure Fix where
  coordinate : Point
  address : Option String
  deriving DecidableEq

/-- The state of a `LocatorViewController` and its `CLLocationManager`. `alerts` lists the places of
the calls of `showVisitedAlert`, oldest first. -/
structure Locator where
  placeLabel : Option String
  annotations : List PlaceLocation
  userAnnotation : Bool
  rotating : Bool
  tracking : Bool
  region : Option (Point × ℚ)
  alerts : List Ref
  deriving DecidableEq

namespace Locator

/-- The view after `viewDidAppear`. -/
def loaded : Locator where
  placeLabel := some ""
  annotations := []
  userAnnotation := false
  rotating := false
  tracking := false
  region := none
  alerts := []

/-- `mapView.annotations.count`. -/
def annotationsCount (view : Locator) : ℕ :=
  view.annotations.length + if view.userAnnotation then 1 else 0

end Locator

/-- `Places.PlacesLocations`. -/
def App.placesLocations (app : App) : List PlaceLocation :=
  app.places.map fun place ↦
    ⟨(app.heap.read place).placeName,
      ⟨(app.heap.read place).latitude, (app.heap.read place).longitude⟩⟩

/-- `Int` of a `Double`, which truncates towards zero. -/
def truncate (value : ℚ) : ℤ := value.num.tdiv value.den

/-- The label in the outer ring. -/
def approachLabel (distance : ℚ) (placeName : String) : String :=
  "Намирате се на " ++ toString (truncate distance) ++ " метра от " ++ placeName ++
    ". \r Доближете се още " ++ toString (truncate (distance - 100)) ++ " метра за да посетите!"

/-- The label after a visit. -/
def visitedLabel (placeName : String) : String := "Посетихте " ++ placeName ++ "!"

/-- The variables of the loop over the places. -/
structure Scan where
  app : App
  view : Locator
  minDistance : ℚ

section LocationUpdated

variable (distanceBetween : Point → Point → ℚ)

/-- The distance from an object to a location. -/
def App.distanceTo (app : App) (place : Ref) (location : Point) : ℚ :=
  distanceBetween ⟨(app.heap.read place).latitude, (app.heap.read place).longitude⟩ location

/-- One round of the loop over the places. -/
def scanPlace (location : Point) (scan : Scan) (place : Ref) : Scan :=
  let distance := scan.app.distanceTo distanceBetween place location
  let placeName := (scan.app.heap.read place).placeName
  let minDistance := if distance < scan.minDistance then distance else scan.minDistance
  if distance < 500 then
    let visited := scan.app.visit place
    if visited.1 = true ∧ distance < 100 then
      { app := visited.2
        view := { scan.view with
          placeLabel := some (visitedLabel placeName)
          rotating := false
          tracking := false
          alerts := scan.view.alerts ++ [place] }
        minDistance }
    else
      { app := visited.2
        view := { scan.view with placeLabel := some (approachLabel distance placeName) }
        minDistance }
  else { scan with minDistance }

/-- `LocatorViewController.locationUpdated`. -/
def locationUpdated (app : App) (view : Locator) (fix : Fix) : App × Locator :=
  let annotations :=
    if view.annotationsCount ≤ 1 then view.annotations ++ app.placesLocations
    else view.annotations
  let scan := app.places.foldl (scanPlace distanceBetween fix.coordinate)
    ⟨app, { view with placeLabel := fix.address, annotations }, 1000000⟩
  (scan.app, { scan.view with
    region := some (fix.coordinate, scan.minDistance * (26 / 5)) })

/-- A sequence of fixes handed to `locationUpdated`, with no other writer. -/
def walk (start : App × Locator) (fixes : List Fix) : App × Locator :=
  fixes.foldl (fun state fix ↦ locationUpdated distanceBetween state.1 state.2 fix) start

end LocationUpdated

/-! ### What the loop does to the app -/

section Scan

variable (distanceBetween : Point → Point → ℚ)

/-- A round visits the place if it is less than 500 m away, and else leaves the app as it is. -/
theorem scanPlace_app (location : Point) (scan : Scan) (place : Ref) :
    (scanPlace distanceBetween location scan place).app =
      if scan.app.distanceTo distanceBetween place location < 500 then (scan.app.visit place).2
      else scan.app := by
  by_cases hring : scan.app.distanceTo distanceBetween place location < 500
  · simp only [scanPlace, if_pos hring]
    split <;> rfl
  · simp only [scanPlace, if_neg hring]

/-- The rule for the loop. Assumes: a property of the app that a visit to a listed place less than
500 m away keeps. The loop over those places keeps it. -/
theorem foldl_scanPlace_app (property : App → Prop) (location : Point) (places : List Ref)
    (hvisit : ∀ app, property app → ∀ place ∈ places,
      app.distanceTo distanceBetween place location < 500 → property (app.visit place).2)
    (scan : Scan) (hscan : property scan.app) :
    property (places.foldl (scanPlace distanceBetween location) scan).app := by
  induction places generalizing scan with
  | nil => exact hscan
  | cons place rest ih =>
    refine ih (fun app happ other hother ↦ hvisit app happ other (List.mem_cons_of_mem _ hother))
      _ ?_
    rw [scanPlace_app]
    split_ifs with hring
    · exact hvisit scan.app hscan place List.mem_cons_self hring
    · exact hscan

/-- The rule for `locationUpdated`. Assumes: a property of the app that a visit to a place of the
store less than 500 m away keeps. -/
theorem locationUpdated_app (property : App → Prop) {app : App} {fix : Fix}
    (hvisit : ∀ other, property other → ∀ place ∈ app.places,
      other.distanceTo distanceBetween place fix.coordinate < 500 → property (other.visit place).2)
    (happ : property app) (view : Locator) :
    property (locationUpdated distanceBetween app view fix).1 :=
  foldl_scanPlace_app distanceBetween property fix.coordinate app.places hvisit _ happ

/-- The frame of a visit: the user, the places of the store and where every object lies. -/
def SamePlaces (first second : App) : Prop :=
  second.currentUser = first.currentUser ∧ second.places = first.places ∧
    ∀ place location, second.distanceTo distanceBetween place location =
      first.distanceTo distanceBetween place location

theorem samePlaces_visit (app : App) (place : Ref) :
    SamePlaces distanceBetween app (app.visit place).2 := by
  refine App.visit_rule (SamePlaces distanceBetween app) ⟨rfl, rfl, fun _ _ ↦ rfl⟩ fun h ↦
    ⟨rfl, rfl, fun other location ↦ ?_⟩
  refine app.heap.view_read_write _
    (fun place : Place ↦ distanceBetween ⟨place.latitude, place.longitude⟩ location) ?_ other
  rw [Places.visit_of_notMem h]

theorem SamePlaces.trans {first second third : App}
    (hfirst : SamePlaces distanceBetween first second)
    (hsecond : SamePlaces distanceBetween second third) :
    SamePlaces distanceBetween first third :=
  ⟨hsecond.1.trans hfirst.1, hsecond.2.1.trans hfirst.2.1,
    fun place location ↦ (hsecond.2.2 place location).trans (hfirst.2.2 place location)⟩

theorem samePlaces_locationUpdated (app : App) (view : Locator) (fix : Fix) :
    SamePlaces distanceBetween app (locationUpdated distanceBetween app view fix).1 :=
  locationUpdated_app distanceBetween (SamePlaces distanceBetween app)
    (fun other hother place _ _ ↦ hother.trans distanceBetween
      (samePlaces_visit distanceBetween other place))
    ⟨rfl, rfl, fun _ _ ↦ rfl⟩ view

end Scan

/-! ### One place along a walk -/

/-- What a walk does to one place: whether the user is among its visitors, and how often its visit
was celebrated. -/
@[ext] structure Encounter where
  visited : Bool
  alerts : ℕ
  deriving DecidableEq

/-- One fix at a distance. -/
def Encounter.meet (distance : ℚ) (encounter : Encounter) : Encounter :=
  if distance < 500 ∧ encounter.visited = false then
    ⟨true, encounter.alerts + if distance < 100 then 1 else 0⟩
  else encounter

theorem Encounter.meet_of_visited {distance : ℚ} {encounter : Encounter}
    (h : encounter.visited = true) : encounter.meet distance = encounter := by
  rw [meet, if_neg (by simp [h])]

theorem Encounter.meet_of_far {distance : ℚ} {encounter : Encounter} (h : ¬ distance < 500) :
    encounter.meet distance = encounter := by
  rw [meet, if_neg (by simp [h])]

theorem Encounter.meet_of_fresh {distance : ℚ} {alerts : ℕ} (h : distance < 500) :
    (⟨false, alerts⟩ : Encounter).meet distance =
      ⟨true, alerts + if distance < 100 then 1 else 0⟩ := by
  rw [meet, if_pos ⟨h, rfl⟩]

/-- A second fix at the same distance changes nothing. -/
theorem Encounter.meet_meet (distance : ℚ) (encounter : Encounter) :
    (encounter.meet distance).meet distance = encounter.meet distance := by
  by_cases h : distance < 500 ∧ encounter.visited = false
  · exact meet_of_visited (by rw [meet, if_pos h])
  · have hsame : encounter.meet distance = encounter := by rw [meet, if_neg h]
    rw [hsame, hsame]

section Walk

variable (distanceBetween : Point → Point → ℚ) {uid : String}

/-- The encounter with a place that a state of the app and the view records. -/
def encounter (uid : String) (app : App) (view : Locator) (place : Ref) : Encounter :=
  ⟨(app.heap.read place).visitors.contains uid, view.alerts.count place⟩

section Round

variable {location : Point} {scan : Scan} {place : Ref}

theorem scanPlace_of_far (hring : ¬ scan.app.distanceTo distanceBetween place location < 500) :
    (scanPlace distanceBetween location scan place).app = scan.app ∧
      (scanPlace distanceBetween location scan place).view = scan.view := by
  simp only [scanPlace, if_neg hring, and_self]

theorem scanPlace_of_visited (huser : scan.app.currentUser = some uid)
    (hmem : uid ∈ (scan.app.heap.read place).visitors) :
    (scanPlace distanceBetween location scan place).app = scan.app ∧
      (scanPlace distanceBetween location scan place).view.alerts = scan.view.alerts := by
  have hvisit : scan.app.visit place = (false, scan.app) :=
    App.visit_of_mem (by rw [huser]; exact hmem)
  by_cases hring : scan.app.distanceTo distanceBetween place location < 500
  · simp only [scanPlace, if_pos hring, hvisit, Bool.false_eq_true, false_and, if_false, and_self]
  · obtain ⟨happ, hview⟩ := scanPlace_of_far distanceBetween hring
    exact ⟨happ, by rw [hview]⟩

theorem scanPlace_of_fresh (huser : scan.app.currentUser = some uid)
    (hnot : uid ∉ (scan.app.heap.read place).visitors)
    (hring : scan.app.distanceTo distanceBetween place location < 500) :
    (scanPlace distanceBetween location scan place).app = (scan.app.visit place).2 ∧
      (scanPlace distanceBetween location scan place).view.alerts =
        scan.view.alerts ++
          if scan.app.distanceTo distanceBetween place location < 100 then [place] else [] := by
  have haccepted : (scan.app.visit place).1 = true := by
    rw [App.visit_of_notMem (by rw [huser]; exact hnot)]
  by_cases hcircle : scan.app.distanceTo distanceBetween place location < 100
  · simp only [scanPlace, if_pos hring, haccepted, hcircle, and_self, if_true]
  · simp only [scanPlace, if_pos hring, hcircle, and_false, if_false, List.append_nil, and_self]

end Round

/-- One round of the loop, for the place of the round and for any other. -/
theorem encounter_scanPlace (location : Point) (scan : Scan) (place other : Ref)
    (huser : scan.app.currentUser = some uid) :
    encounter uid (scanPlace distanceBetween location scan other).app
        (scanPlace distanceBetween location scan other).view place =
      if place = other then
        (encounter uid scan.app scan.view place).meet
          (scan.app.distanceTo distanceBetween place location)
      else encounter uid scan.app scan.view place := by
  by_cases hmem : uid ∈ (scan.app.heap.read other).visitors
  · obtain ⟨happ, halerts⟩ : (scanPlace distanceBetween location scan other).app = scan.app ∧ _ :=
      scanPlace_of_visited distanceBetween huser hmem
    rw [encounter, happ, halerts]
    split_ifs with hplace
    · rw [Encounter.meet_of_visited (by simp [encounter, hplace, hmem])]
      rfl
    · rfl
  by_cases hring : scan.app.distanceTo distanceBetween other location < 500
  · obtain ⟨happ, halerts⟩ := scanPlace_of_fresh distanceBetween huser hmem hring
    have hnot : Places.visitName scan.app.currentUser (scan.app.heap.read other) ∉
        (scan.app.heap.read other).visitors := by
      rw [huser]
      exact hmem
    rw [encounter, happ, halerts, App.visit_of_notMem hnot]
    by_cases hplace : place = other
    · subst hplace
      have hstart : encounter uid scan.app scan.view place =
          ⟨false, scan.view.alerts.count place⟩ := by simp [encounter, hmem]
      rw [if_pos rfl, hstart, Encounter.meet_of_fresh hring, Heap.read_write_self,
        Places.visit_of_notMem hnot]
      by_cases hcircle : scan.app.distanceTo distanceBetween place location < 100
      · simp [huser, Places.visitName, hcircle]
      · simp [huser, Places.visitName, hcircle]
    · have hcount : (if scan.app.distanceTo distanceBetween other location < 100 then [other]
          else []).count place = 0 := by
        split <;> simp [Ne.symm hplace]
      rw [if_neg hplace, Heap.read_write_of_ne _ _ hplace, List.count_append, hcount]
      rfl
  · obtain ⟨happ, hview⟩ := scanPlace_of_far distanceBetween hring
    rw [encounter, happ, hview]
    split_ifs with hplace
    · subst hplace
      rw [Encounter.meet_of_far hring]
      rfl
    · rfl

/-- The loop over the places meets each listed place once. -/
theorem encounter_foldl_scanPlace (location : Point) (places : List Ref) (scan : Scan)
    (place : Ref) (huser : scan.app.currentUser = some uid) :
    encounter uid (places.foldl (scanPlace distanceBetween location) scan).app
        (places.foldl (scanPlace distanceBetween location) scan).view place =
      if place ∈ places then
        (encounter uid scan.app scan.view place).meet
          (scan.app.distanceTo distanceBetween place location)
      else encounter uid scan.app scan.view place := by
  induction places generalizing scan with
  | nil => simp
  | cons other rest ih =>
    have hsame : SamePlaces distanceBetween scan.app
        (scanPlace distanceBetween location scan other).app := by
      rw [scanPlace_app]
      split_ifs
      · exact samePlaces_visit distanceBetween scan.app other
      · exact ⟨rfl, rfl, fun _ _ ↦ rfl⟩
    rw [List.foldl_cons, ih _ (hsame.1.trans huser), hsame.2.2,
      encounter_scanPlace distanceBetween location scan place other huser]
    by_cases hplace : place = other
    · -- the place of this round, which the rest of the list may name again
      subst hplace
      simp only [if_pos, List.mem_cons, true_or, Encounter.meet_meet, ite_self]
    · simp only [hplace, if_false, List.mem_cons, false_or]

/-- What a fix does to a place of the store. -/
theorem encounter_locationUpdated {app : App} (view : Locator) (fix : Fix) {place : Ref}
    (huser : app.currentUser = some uid) (hplace : place ∈ app.places) :
    encounter uid (locationUpdated distanceBetween app view fix).1
        (locationUpdated distanceBetween app view fix).2 place =
      (encounter uid app view place).meet
        (app.distanceTo distanceBetween place fix.coordinate) := by
  have hloop := encounter_foldl_scanPlace distanceBetween fix.coordinate app.places
    ⟨app, { view with
      placeLabel := fix.address
      annotations :=
        if view.annotationsCount ≤ 1 then view.annotations ++ app.placesLocations
        else view.annotations }, 1000000⟩ place huser
  rw [if_pos hplace] at hloop
  exact hloop

/-- What a walk does to a place of the store. -/
theorem encounter_walk (start : App × Locator) (fixes : List Fix) {place : Ref}
    (huser : start.1.currentUser = some uid) (hplace : place ∈ start.1.places) :
    encounter uid (walk distanceBetween start fixes).1 (walk distanceBetween start fixes).2 place =
      fixes.foldl (fun encounter fix ↦
        encounter.meet (start.1.distanceTo distanceBetween place fix.coordinate))
        (encounter uid start.1 start.2 place) := by
  induction fixes generalizing start with
  | nil => rfl
  | cons fix rest ih =>
    have hsame := samePlaces_locationUpdated distanceBetween start.1 start.2 fix
    have hrest := ih (locationUpdated distanceBetween start.1 start.2 fix)
      (hsame.1.trans huser) (by rw [hsame.2.1]; exact hplace)
    rw [encounter_locationUpdated distanceBetween start.2 fix huser hplace] at hrest
    simp only [hsame.2.2] at hrest
    exact hrest

/-- From a place not visited, the fixes at distances visit it when one of them is below 500, and
celebrate once when the first one below 500 is below 100. -/
theorem foldl_meet {Location : Type} (distance : Location → ℚ) (locations : List Location) :
    locations.foldl (fun (encounter : Encounter) location ↦ encounter.meet (distance location))
        ⟨false, 0⟩ =
      (locations.find? fun location ↦ distance location < 500).elim ⟨false, 0⟩
        fun location ↦ ⟨true, if distance location < 100 then 1 else 0⟩ := by
  have hvisited (alerts : ℕ) (rest : List Location) :
      rest.foldl (fun (encounter : Encounter) location ↦ encounter.meet (distance location))
        ⟨true, alerts⟩ = ⟨true, alerts⟩ := by
    induction rest with
    | nil => rfl
    | cons location rest ih =>
      rw [List.foldl_cons, Encounter.meet_of_visited rfl]
      exact ih
  induction locations with
  | nil => rfl
  | cons location rest ih =>
    by_cases hring : distance location < 500
    · rw [List.foldl_cons, List.find?_cons_of_pos (by simpa using hring),
        Encounter.meet_of_fresh hring, Nat.zero_add]
      exact hvisited _ rest
    · rw [List.foldl_cons, List.find?_cons_of_neg (by simpa using hring),
        Encounter.meet_of_far hring]
      exact ih

/-- The visits of a walk are recorded and celebrated exactly within 100 m: after the walk the user
is among the visitors of a place precisely when some fix was less than 100 m from it, and after
every part of the walk the place was celebrated once if some fix of that part was less than 100 m
from it, and not at all otherwise. -/
def VisitsExact (uid : String) (start : App × Locator) (fixes : List Fix) : Prop :=
  ∀ place ∈ start.1.places,
    (uid ∈ ((walk distanceBetween start fixes).1.heap.read place).visitors ↔
      ∃ fix ∈ fixes, start.1.distanceTo distanceBetween place fix.coordinate < 100) ∧
    ∀ count, (walk distanceBetween start (fixes.take count)).2.alerts.count place =
      if ∃ fix ∈ fixes.take count, start.1.distanceTo distanceBetween place fix.coordinate < 100
      then 1 else 0

/-- Assumes: a user who is signed in and no visitor of any place of the store, and no alert yet. A
walk records and celebrates the visits exactly within 100 m precisely when, for every place of the
store, the first fix less than 500 m from it, if there is one, is less than 100 m from it. -/
theorem visitsExact_iff {start : App × Locator} (huser : start.1.currentUser = some uid)
    (hunvisited : ∀ place ∈ start.1.places, uid ∉ (start.1.heap.read place).visitors)
    (halerts : start.2.alerts = []) (fixes : List Fix) :
    VisitsExact distanceBetween uid start fixes ↔
      ∀ place ∈ start.1.places, ∀ fix,
        (fixes.find? fun fix ↦
          start.1.distanceTo distanceBetween place fix.coordinate < 500) = some fix →
        start.1.distanceTo distanceBetween place fix.coordinate < 100 := by
  refine forall₂_congr fun place hplace ↦ ?_
  set distance : Fix → ℚ := fun fix ↦
    start.1.distanceTo distanceBetween place fix.coordinate
  have hstart : encounter uid start.1 start.2 place = ⟨false, 0⟩ := by
    simp [encounter, hunvisited place hplace, halerts]
  have hwalk (part : List Fix) :
      encounter uid (walk distanceBetween start part).1 (walk distanceBetween start part).2 place =
        (part.find? fun fix ↦ distance fix < 500).elim ⟨false, 0⟩
          fun fix ↦ ⟨true, if distance fix < 100 then 1 else 0⟩ := by
    rw [encounter_walk distanceBetween start part huser hplace, hstart]
    exact foldl_meet distance part
  have hvisited : uid ∈ ((walk distanceBetween start fixes).1.heap.read place).visitors ↔
      (fixes.find? fun fix ↦ distance fix < 500).isSome := by
    have hencounter := congrArg Encounter.visited (hwalk fixes)
    cases hfirst : fixes.find? fun fix ↦ distance fix < 500 <;>
      simpa [encounter, hfirst] using hencounter
  have hcount (part : List Fix) : (walk distanceBetween start part).2.alerts.count place =
      (part.find? fun fix ↦ distance fix < 500).elim 0
        fun fix ↦ if distance fix < 100 then 1 else 0 := by
    have hencounter := congrArg Encounter.alerts (hwalk part)
    cases hfirst : part.find? fun fix ↦ distance fix < 500 <;>
      simpa [encounter, hfirst] using hencounter
  -- a fix within 100 m is a fix within 500 m
  have hsome {part : List Fix} (hnear : ∃ fix ∈ part, distance fix < 100) :
      (part.find? fun fix ↦ distance fix < 500).isSome := by
    obtain ⟨fix, hfix, hclose⟩ := hnear
    exact List.find?_isSome.mpr ⟨fix, hfix, by simpa using hclose.trans (by norm_num)⟩
  constructor
  · rintro ⟨hrecorded, hcelebrated⟩ fix hfirst
    have hnear := hrecorded.mp (hvisited.mpr (by rw [hfirst]; rfl))
    have hone := hcelebrated fixes.length
    rw [List.take_length, hcount, if_pos hnear] at hone
    rw [hfirst, Option.elim_some] at hone
    by_contra hfar
    rw [if_neg hfar] at hone
    exact absurd hone (by decide)
  · intro hfirst
    have hnear {part : List Fix} (hpart : part <+: fixes) {fix : Fix}
        (hfix : (part.find? fun fix ↦ distance fix < 500) = some fix) : distance fix < 100 :=
      hfirst fix (hpart.find?_eq_some hfix)
    refine ⟨hvisited.trans ⟨fun hring ↦ ?_, hsome⟩, fun count ↦ ?_⟩
    · obtain ⟨fix, hfix⟩ := Option.isSome_iff_exists.mp hring
      exact ⟨fix, List.mem_of_find?_eq_some hfix, hfirst fix hfix⟩
    · rw [hcount]
      cases hfix : (fixes.take count).find? fun fix ↦ distance fix < 500 with
      | none =>
        refine (if_neg fun hclose ↦ ?_).symm
        have hring := hsome hclose
        rw [hfix] at hring
        cases hring
      | some fix =>
        have hclose := hnear (List.take_prefix count fixes) hfix
        rw [if_pos ⟨fix, List.mem_of_find?_eq_some hfix, hclose⟩]
        exact if_pos hclose

/-- A store that holds `samplePlace`, on the device of the user `ana`. -/
def sampleApp : App :=
  { App.launched (some "ana") ∅ App.sampleDirectories with
    heap := ⟨fun _ ↦ samplePlace, 1⟩
    places := [0] }

/-- A distance for samples, the difference of the latitudes. -/
def sampleDistance (first second : Point) : ℚ := |first.latitude - second.latitude|

theorem visitsExact_iff_sample :
    VisitsExact sampleDistance "ana" (sampleApp, Locator.loaded) [⟨⟨92, 23⟩, none⟩] :=
  have huser : (sampleApp, Locator.loaded).1.currentUser = some "ana" := rfl
  (visitsExact_iff sampleDistance huser (by decide) rfl [⟨⟨92, 23⟩, none⟩]).mpr
    (by decide +kernel)

/-- A user who comes within 300 m of a place and then within 50 m of it: the visit is recorded at
300 m, where no fix has been within 100 m, and the fix at 50 m celebrates nothing. -/
theorem visitsExact_counterexample :
    sampleApp.currentUser = some "ana" ∧
      (∀ place ∈ sampleApp.places, "ana" ∉ (sampleApp.heap.read place).visitors) ∧
      ¬ VisitsExact sampleDistance "ana" (sampleApp, Locator.loaded) [⟨⟨342, 23⟩, none⟩] ∧
      ¬ VisitsExact sampleDistance "ana" (sampleApp, Locator.loaded)
        [⟨⟨342, 23⟩, none⟩, ⟨⟨92, 23⟩, none⟩] := by
  refine ⟨rfl, by decide, fun hexact ↦ ?_, fun hexact ↦ ?_⟩
  · exact absurd (hexact 0 (by decide)).1 (by decide +kernel)
  · exact absurd ((hexact 0 (by decide)).2 2) (by decide +kernel)

end Walk

end BeenHere
