import BeenHere.Locator

/-!
# One fix

The loop of `locationUpdated` in closed form. It visits one object after another and each visit
changes an object of the heap, the outbox and perhaps the view, while the next round reads them
again. Since the entries of a store are different objects, no round sees what an earlier one has
done, and the whole loop does to every place at once what a round does to its own
(`foldl_scanPlace`, `locationUpdated_eq`): one write for every place less than 500 m away that does
not list the user, in the order of the store, an alert for those of them that are less than 100 m
away, and a label that is the one of the last place less than 500 m away.
-/

set_option autoImplicit false
set_option relaxedAutoImplicit false

namespace BeenHere

open ObjectHeap

namespace App

/-! ### Visiting several places -/

/-- A visit of the object would be accepted. -/
def accepts (app : App) (place : Ref) : Bool :=
  !(app.heap.read place).visitors.contains
    (Places.visitName app.currentUser (app.heap.read place))

/-- An object after a visit. -/
def visited (app : App) (place : Ref) : Place :=
  (Places.visit app.currentUser (app.heap.read place)).2

/-- Every listed object is visited in the state in which the first of them is. -/
def visitAll (app : App) (places : List Ref) : App :=
  { app with
    heap := { app.heap with
      read := fun ref ↦ if ref ∈ places then app.visited ref else app.heap.read ref }
    outbox := app.outbox ++ (places.filter app.accepts).map fun place ↦
      ⟨(app.visited place).key, Place.dictionaryFromPlace (app.visited place)⟩ }

variable {app : App} {place : Ref}

theorem accepts_iff : app.accepts place = true ↔
    Places.visitName app.currentUser (app.heap.read place) ∉ (app.heap.read place).visitors := by
  simp [accepts]

theorem accepts_eq_false_iff : app.accepts place = false ↔
    Places.visitName app.currentUser (app.heap.read place) ∈ (app.heap.read place).visitors := by
  simp [accepts]

theorem visited_of_refused (h : app.accepts place = false) :
    app.visited place = app.heap.read place := by
  rw [visited, Places.visit_of_mem (accepts_eq_false_iff.mp h)]

/-- A visit is accepted exactly if it would be. -/
theorem visit_fst (app : App) (place : Ref) : (app.visit place).1 = app.accepts place := by
  cases h : app.accepts place with
  | false => rw [visit_of_mem (accepts_eq_false_iff.mp h)]
  | true => rw [visit_of_notMem (accepts_iff.mp h)]

@[simp] theorem visitAll_nil (app : App) : app.visitAll [] = app := by
  simp [visitAll]

/-- One visit. -/
theorem visitAll_singleton (app : App) (place : Ref) :
    app.visitAll [place] = (app.visit place).2 := by
  have hread : (fun ref ↦ if ref ∈ [place] then app.visited ref else app.heap.read ref) =
      Function.update app.heap.read place (app.visited place) := by
    funext ref
    by_cases href : ref = place
    · rw [href, if_pos List.mem_cons_self, Function.update_self]
    · rw [if_neg (by simpa using href), Function.update_of_ne href]
  rw [visitAll, hread]
  cases h : app.accepts place with
  | false =>
    rw [visit_of_mem (accepts_eq_false_iff.mp h), visited_of_refused h, Function.update_eq_self]
    simp [h]
  | true =>
    rw [visit_of_notMem (accepts_iff.mp h), List.filter_cons_of_pos h, List.filter_nil,
      List.map_singleton, visited, Places.key_visit]
    rfl

/-- A visit of other objects changes nothing of an object. -/
theorem read_visitAll_of_notMem {places : List Ref} (h : place ∉ places) :
    (app.visitAll places).heap.read place = app.heap.read place := if_neg h

theorem accepts_visitAll_of_notMem {places : List Ref} (h : place ∉ places) :
    (app.visitAll places).accepts place = app.accepts place := by
  rw [accepts, accepts, read_visitAll_of_notMem h]
  rfl

theorem visited_visitAll_of_notMem {places : List Ref} (h : place ∉ places) :
    (app.visitAll places).visited place = app.visited place := by
  rw [visited, visited, read_visitAll_of_notMem h]
  rfl

/-- Visits of different objects do not see each other. -/
theorem visitAll_append {first second : List Ref} (h : first.Disjoint second) :
    (app.visitAll first).visitAll second = app.visitAll (first ++ second) := by
  have hsecond {place : Ref} (hplace : place ∈ second) : place ∉ first :=
    fun hfirst ↦ h hfirst hplace
  have hread : (fun ref ↦ if ref ∈ second then (app.visitAll first).visited ref
      else (app.visitAll first).heap.read ref) =
        fun ref ↦ if ref ∈ first ++ second then app.visited ref else app.heap.read ref := by
    funext ref
    by_cases href : ref ∈ second
    · rw [if_pos href, if_pos (List.mem_append_right _ href),
        visited_visitAll_of_notMem (hsecond href)]
    · simp only [List.mem_append, href, or_false]
      rfl
  have hfilter : second.filter (app.visitAll first).accepts = second.filter app.accepts :=
    List.filter_congr fun place hplace ↦ accepts_visitAll_of_notMem (hsecond hplace)
  have hwrites : (second.filter app.accepts).map (fun place ↦
      (⟨((app.visitAll first).visited place).key,
        Place.dictionaryFromPlace ((app.visitAll first).visited place)⟩ : Write)) =
        (second.filter app.accepts).map fun place ↦
          ⟨(app.visited place).key, Place.dictionaryFromPlace (app.visited place)⟩ :=
    List.map_congr_left fun place hplace ↦ by
      rw [visited_visitAll_of_notMem (hsecond (List.mem_filter.mp hplace).1)]
  rw [visitAll, hread, hfilter, hwrites]
  simp only [visitAll, List.filter_append, List.map_append, List.append_assoc]

end App

/-! ### The loop -/

section Sweep

variable (distanceBetween : Point → Point → ℚ) (location : Point)

namespace App

/-- The places of a list that are less than 500 m away. -/
def nearby (app : App) (places : List Ref) : List Ref :=
  places.filter fun place ↦ app.distanceTo distanceBetween place location < 500

/-- A visit that is accepted less than 100 m away. -/
def celebrates (app : App) (place : Ref) : Bool :=
  app.accepts place && app.distanceTo distanceBetween place location < 100

/-- What the label says of a place less than 500 m away. -/
def placeLabel (app : App) (place : Ref) : String :=
  if app.celebrates distanceBetween location place then
    visitedLabel (app.heap.read place).placeName
  else approachLabel (app.distanceTo distanceBetween place location)
    (app.heap.read place).placeName

end App

/-- The view after the loop. -/
def Locator.sweep (view : Locator) (app : App) (places : List Ref) : Locator :=
  let nearby := app.nearby distanceBetween location places
  let celebrates := app.celebrates distanceBetween location
  { view with
    placeLabel :=
      (nearby.getLast?.map (app.placeLabel distanceBetween location)).or view.placeLabel
    rotating := view.rotating && !nearby.any celebrates
    tracking := view.tracking && !nearby.any celebrates
    alerts := view.alerts ++ nearby.filter celebrates }

/-- The variables after the loop. -/
def Scan.sweep (scan : Scan) (places : List Ref) : Scan where
  app := scan.app.visitAll (scan.app.nearby distanceBetween location places)
  view := scan.view.sweep distanceBetween location scan.app places
  minDistance := (places.map fun place ↦
    scan.app.distanceTo distanceBetween place location).foldl min scan.minDistance

variable {distanceBetween location}

variable {app : App} {place : Ref}

theorem nearby_append (app : App) (first second : List Ref) :
    app.nearby distanceBetween location (first ++ second) =
      app.nearby distanceBetween location first ++ app.nearby distanceBetween location second :=
  List.filter_append ..

/-! ### Different places -/

/-- Visits move no place. -/
theorem distanceTo_visitAll (app : App) (places : List Ref) (place : Ref) (location : Point) :
    (app.visitAll places).distanceTo distanceBetween place location =
      app.distanceTo distanceBetween place location := by
  by_cases h : place ∈ places
  · have hread : (app.visitAll places).heap.read place = app.visited place := if_pos h
    rw [App.distanceTo, App.distanceTo, hread, App.visited]
    cases haccepts : app.accepts place with
    | false => rw [Places.visit_of_mem (App.accepts_eq_false_iff.mp haccepts)]
    | true => rw [Places.visit_of_notMem (App.accepts_iff.mp haccepts)]
  · rw [App.distanceTo, App.distanceTo, App.read_visitAll_of_notMem h]

theorem nearby_visitAll (app : App) (visited places : List Ref) :
    (app.visitAll visited).nearby distanceBetween location places =
      app.nearby distanceBetween location places := by
  simp only [App.nearby, distanceTo_visitAll]

/-- Visits of other places change nothing that a round for a place looks at. -/
theorem celebrates_visitAll_of_notMem {places : List Ref} (h : place ∉ places) :
    (app.visitAll places).celebrates distanceBetween location place =
      app.celebrates distanceBetween location place := by
  rw [App.celebrates, App.celebrates, App.accepts_visitAll_of_notMem h, distanceTo_visitAll]

theorem placeLabel_visitAll_of_notMem {places : List Ref} (h : place ∉ places) :
    (app.visitAll places).placeLabel distanceBetween location place =
      app.placeLabel distanceBetween location place := by
  simp only [App.placeLabel, celebrates_visitAll_of_notMem h, distanceTo_visitAll,
    App.read_visitAll_of_notMem h]

/-- Sweeping over two lists of different places is sweeping over both at once. -/
theorem Scan.sweep_append {first second : List Ref} (h : first.Disjoint second) (scan : Scan) :
    (scan.sweep distanceBetween location first).sweep distanceBetween location second =
      scan.sweep distanceBetween location (first ++ second) := by
  have hdisjoint : (scan.app.nearby distanceBetween location first).Disjoint
      (scan.app.nearby distanceBetween location second) :=
    fun place hfirst hsecond ↦ h (List.mem_filter.mp hfirst).1 (List.mem_filter.mp hsecond).1
  have hother {place : Ref} (hplace : place ∈ scan.app.nearby distanceBetween location second) :
      place ∉ scan.app.nearby distanceBetween location first :=
    fun hfirst ↦ hdisjoint hfirst hplace
  have hany : (scan.app.nearby distanceBetween location second).any
      ((scan.app.visitAll (scan.app.nearby distanceBetween location first)).celebrates
        distanceBetween location) =
        (scan.app.nearby distanceBetween location second).any
          (scan.app.celebrates distanceBetween location) := by
    rw [Bool.eq_iff_iff, List.any_eq_true, List.any_eq_true]
    exact exists_congr fun place ↦ and_congr_right fun hplace ↦ by
      rw [celebrates_visitAll_of_notMem (hother hplace)]
  have hcelebrated : (scan.app.nearby distanceBetween location second).filter
      ((scan.app.visitAll (scan.app.nearby distanceBetween location first)).celebrates
        distanceBetween location) =
        (scan.app.nearby distanceBetween location second).filter
          (scan.app.celebrates distanceBetween location) :=
    List.filter_congr fun place hplace ↦ celebrates_visitAll_of_notMem (hother hplace)
  have hlabel : (scan.app.nearby distanceBetween location second).getLast?.map
      ((scan.app.visitAll (scan.app.nearby distanceBetween location first)).placeLabel
        distanceBetween location) =
        (scan.app.nearby distanceBetween location second).getLast?.map
          (scan.app.placeLabel distanceBetween location) :=
    Option.map_congr fun place hplace ↦
      placeLabel_visitAll_of_notMem (hother (List.mem_of_getLast? hplace))
  simp only [Scan.sweep, Locator.sweep, nearby_visitAll, hany, hcelebrated, hlabel,
    App.visitAll_append hdisjoint, distanceTo_visitAll, nearby_append, List.filter_append,
    List.getLast?_append, Option.map_or, List.any_append, Option.or_assoc, List.append_assoc,
    Bool.not_or, Bool.and_assoc, List.map_append, List.foldl_append]

/-! ### The loop -/

/-- A round is a sweep over one place. -/
theorem scanPlace_eq_sweep (scan : Scan) (place : Ref) :
    scanPlace distanceBetween location scan place =
      scan.sweep distanceBetween location [place] := by
  have hmin : (if scan.app.distanceTo distanceBetween place location < scan.minDistance then
      scan.app.distanceTo distanceBetween place location else scan.minDistance) =
        min scan.minDistance (scan.app.distanceTo distanceBetween place location) := by
    rw [min_comm, min_def_lt]
  by_cases hring : scan.app.distanceTo distanceBetween place location < 500
  · have hnearby : scan.app.nearby distanceBetween location [place] = [place] := by
      simp [App.nearby, hring]
    simp only [scanPlace, if_pos hring, App.visit_fst, hmin]
    by_cases hcelebrates : scan.app.celebrates distanceBetween location place
    · have haccepted := hcelebrates
      rw [App.celebrates, Bool.and_eq_true, decide_eq_true_iff] at haccepted
      rw [if_pos haccepted]
      simp [Scan.sweep, Locator.sweep, hnearby, App.visitAll_singleton, hcelebrates,
        App.placeLabel]
    · have hrefused := hcelebrates
      rw [App.celebrates, Bool.and_eq_true, decide_eq_true_iff] at hrefused
      rw [if_neg hrefused]
      simp [Scan.sweep, Locator.sweep, hnearby, App.visitAll_singleton, hcelebrates,
        App.placeLabel]
  · have hnearby : scan.app.nearby distanceBetween location [place] = [] := by
      simp [App.nearby, hring]
    simp only [scanPlace, if_neg hring, hmin]
    simp [Scan.sweep, Locator.sweep, hnearby]

/-- The loop over different places. -/
theorem foldl_scanPlace {places : List Ref} (hplaces : places.Nodup) (scan : Scan) :
    places.foldl (scanPlace distanceBetween location) scan =
      scan.sweep distanceBetween location places := by
  induction places generalizing scan with
  | nil => simp [Scan.sweep, Locator.sweep, App.nearby]
  | cons place rest ih =>
    rw [List.nodup_cons] at hplaces
    have hdisjoint : [place].Disjoint rest := by simpa using hplaces.1
    rw [List.foldl_cons, ih hplaces.2, scanPlace_eq_sweep, Scan.sweep_append hdisjoint]
    rfl

theorem App.WellFormed.nodup (h : app.WellFormed) : app.places.Nodup := List.Nodup.of_map _ h.keys

/-- Assumes: a well formed store. One fix visits the places of the store less than 500 m away. -/
theorem App.WellFormed.locationUpdated_fst (h : app.WellFormed) (view : Locator) (fix : Fix) :
    (locationUpdated distanceBetween app view fix).1 =
      app.visitAll (app.nearby distanceBetween fix.coordinate app.places) := by
  rw [locationUpdated, foldl_scanPlace h.nodup]
  rfl

/-- Assumes: a well formed store. -/
theorem App.WellFormed.alerts_locationUpdated (h : app.WellFormed) (view : Locator) (fix : Fix) :
    (locationUpdated distanceBetween app view fix).2.alerts =
      view.alerts ++ (app.nearby distanceBetween fix.coordinate app.places).filter
        (app.celebrates distanceBetween fix.coordinate) := by
  rw [locationUpdated, foldl_scanPlace h.nodup]
  rfl

/-- Assumes: a well formed store. What one fix does. Every place of the store less than 500 m away
is visited as if it were the only one, with one write for each visit that is accepted, in the order
of the store, and nothing else of the app changes. An alert is shown for every visit that is
accepted less than 100 m away, in the order of the store, and if there is one the radar and the
tracking stop. The label is the one of the last place less than 500 m away, and the address if there
is none. The region is 5.2 times as wide as the smallest distance, or as 1000 km if that is smaller.
-/
theorem locationUpdated_eq (h : app.WellFormed) (view : Locator) (fix : Fix) :
    locationUpdated distanceBetween app view fix =
      let nearby := app.places.filter fun place ↦
        app.distanceTo distanceBetween place fix.coordinate < 500
      let celebrated := nearby.filter fun place ↦
        app.accepts place && app.distanceTo distanceBetween place fix.coordinate < 100
      ({ app with
          heap := { app.heap with
            read := fun ref ↦
              if ref ∈ nearby then (Places.visit app.currentUser (app.heap.read ref)).2
              else app.heap.read ref }
          outbox := app.outbox ++ (nearby.filter app.accepts).map fun place ↦
            ⟨(app.heap.read place).key,
              Place.dictionaryFromPlace (Places.visit app.currentUser (app.heap.read place)).2⟩ },
        { view with
          annotations :=
            if view.annotationsCount ≤ 1 then view.annotations ++ app.placesLocations
            else view.annotations
          placeLabel :=
            (nearby.getLast?.map fun place ↦
              if place ∈ celebrated then visitedLabel (app.heap.read place).placeName
              else approachLabel (app.distanceTo distanceBetween place fix.coordinate)
                (app.heap.read place).placeName).or fix.address
          rotating := view.rotating && celebrated.isEmpty
          tracking := view.tracking && celebrated.isEmpty
          region := some (fix.coordinate,
            (app.places.map fun place ↦
              app.distanceTo distanceBetween place fix.coordinate).foldl min 1000000 * (26 / 5))
          alerts := view.alerts ++ celebrated }) := by
  have hany (nearby : List Ref) :
      (!nearby.any (app.celebrates distanceBetween fix.coordinate)) =
        (nearby.filter (app.celebrates distanceBetween fix.coordinate)).isEmpty := by
    rw [Bool.eq_iff_iff]
    simp
  have hlabel : (app.nearby distanceBetween fix.coordinate app.places).getLast?.map
      (app.placeLabel distanceBetween fix.coordinate) =
        (app.nearby distanceBetween fix.coordinate app.places).getLast?.map fun place ↦
          if place ∈ (app.nearby distanceBetween fix.coordinate app.places).filter
              (app.celebrates distanceBetween fix.coordinate) then
            visitedLabel (app.heap.read place).placeName
          else approachLabel (app.distanceTo distanceBetween place fix.coordinate)
            (app.heap.read place).placeName := by
    refine Option.map_congr fun place hplace ↦ ?_
    have hnearby := List.mem_of_getLast? hplace
    simp only [App.placeLabel, List.mem_filter, hnearby, true_and]
  have hkey (place : Ref) : (Places.visit app.currentUser (app.heap.read place)).2.key =
      (app.heap.read place).key := Places.key_visit ..
  simp only [locationUpdated, foldl_scanPlace h.nodup, Scan.sweep, Locator.sweep, hany, hlabel,
    App.visitAll, App.visited, hkey]
  rfl

end Sweep

theorem wellFormed_sampleApp : sampleApp.WellFormed := ⟨by decide, by decide⟩

/-- An app of the user `ana` with two places, less than 500 m from each other. -/
def tourApp : App :=
  { sampleApp with
    heap := sampleApp.heap.alloc
      { samplePlace with placeName := "Rila Monastery", key := "rila", latitude := 500 }
    places := [0, 1] }

theorem wellFormed_tourApp : tourApp.WellFormed := ⟨by decide, by decide⟩

/-- The first fix is 50 m from one place and 408 m from the other: both are visited, and one visit
is celebrated. The second fix is 20 m from the other place, which has been visited. -/
theorem locationUpdated_eq_sample :
    let first := locationUpdated sampleDistance tourApp Locator.loaded ⟨⟨92, 23⟩, none⟩
    let second := locationUpdated sampleDistance first.1 first.2 ⟨⟨480, 23⟩, some "Rila"⟩
    (first.1.outbox.map Write.key = ["boyana", "rila"] ∧ first.2.alerts = [0] ∧
        first.2.placeLabel = some (approachLabel 408 "Rila Monastery")) ∧
      second.1.outbox.map Write.key = ["boyana", "rila"] ∧ second.2.alerts = [0] := by
  have hfirst : (locationUpdated sampleDistance tourApp Locator.loaded
      ⟨⟨92, 23⟩, none⟩).1.WellFormed :=
    ⟨by decide +kernel, by decide +kernel⟩
  dsimp only
  rw [locationUpdated_eq hfirst, locationUpdated_eq wellFormed_tourApp]
  decide +kernel

end BeenHere
