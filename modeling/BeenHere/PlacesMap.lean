import BeenHere.Library.PartialRun
import BeenHere.Locator

/-!
# The map of the locator

The place annotations of the map while entries arrive in the store and fixes are handed to
`locationUpdated`. A fix adds the annotations of all entries at once if the map carries at most one
annotation, which may be the one of the user. After every fix the map shows each entry once exactly
if every fix finds no place annotation, or at least two annotations and no entry that has arrived
since the fix before (`current_iff`).
-/

set_option autoImplicit false
set_option relaxedAutoImplicit false

namespace BeenHere

open Firebase ObjectHeap

/-! ### What a fix does to the map -/

/-- Two apps that differ in the visitors of the places, and not in the store. -/
def SameButVisitors (before after : App) : Prop :=
  after.places = before.places ∧ after.heap.next = before.heap.next ∧
    ∀ ref, { after.heap.read ref with visitors := [] } =
      { before.heap.read ref with visitors := [] }

theorem SameButVisitors.trans {first second third : App} (hfirst : SameButVisitors first second)
    (hsecond : SameButVisitors second third) : SameButVisitors first third :=
  ⟨hsecond.1.trans hfirst.1, hsecond.2.1.trans hfirst.2.1,
    fun ref ↦ (hsecond.2.2 ref).trans (hfirst.2.2 ref)⟩

theorem sameButVisitors_visit (app : App) (place : Ref) :
    SameButVisitors app (app.visit place).2 := by
  refine App.visit_rule (SameButVisitors app) ⟨rfl, rfl, fun _ ↦ rfl⟩ fun h ↦ ⟨rfl, rfl, ?_⟩
  refine app.heap.view_read_write _ (fun place : Place ↦ { place with visitors := [] }) ?_
  rw [Places.visit_of_notMem h]

theorem SameButVisitors.wellFormed {before after : App} (h : SameButVisitors before after)
    (hwell : before.WellFormed) : after.WellFormed := by
  refine hwell.of_key h.1 h.2.1 fun ref ↦ ?_
  have hkey := congrArg Place.key (h.2.2 ref)
  exact hkey

theorem SameButVisitors.placesLocations {before after : App} (h : SameButVisitors before after) :
    after.placesLocations = before.placesLocations := by
  rw [App.placesLocations, App.placesLocations, h.1]
  refine List.map_congr_left fun ref _ ↦ ?_
  have hname := congrArg Place.placeName (h.2.2 ref)
  have hlatitude := congrArg Place.latitude (h.2.2 ref)
  have hlongitude := congrArg Place.longitude (h.2.2 ref)
  exact congrArg₂ PlaceLocation.mk hname (congrArg₂ Point.mk hlatitude hlongitude)

section Fix

variable (distanceBetween : Point → Point → ℚ)

theorem sameButVisitors_locationUpdated (app : App) (view : Locator) (fix : Fix) :
    SameButVisitors app (locationUpdated distanceBetween app view fix).1 :=
  locationUpdated_app distanceBetween (SameButVisitors app)
    (fun other hother place _ _ ↦ hother.trans (sameButVisitors_visit other place))
    ⟨rfl, rfl, fun _ ↦ rfl⟩ view

theorem annotations_scanPlace (location : Point) (scan : Scan) (place : Ref) :
    (scanPlace distanceBetween location scan place).view.annotations = scan.view.annotations := by
  simp only [scanPlace]
  split_ifs <;> rfl

theorem Locator.annotationsCount_le_one {view : Locator} (h : view.annotations = []) :
    view.annotationsCount ≤ 1 := by
  rw [annotationsCount, h]
  split_ifs <;> decide

theorem annotations_locationUpdated (app : App) (view : Locator) (fix : Fix) :
    (locationUpdated distanceBetween app view fix).2.annotations =
      if view.annotationsCount ≤ 1 then view.annotations ++ app.placesLocations
      else view.annotations := by
  have hloop (places : List Ref) (scan : Scan) :
      (places.foldl (scanPlace distanceBetween fix.coordinate) scan).view.annotations =
        scan.view.annotations := by
    induction places generalizing scan with
    | nil => rfl
    | cons place rest ih =>
      exact (ih _).trans (annotations_scanPlace distanceBetween fix.coordinate scan place)
  exact hloop app.places _

end Fix

/-! ### What an arrival does to the map -/

theorem length_placesLocations (app : App) : app.placesLocations.length = app.places.length :=
  List.length_map ..

/-- A new entry adds its annotation to those that the map should show, and leaves the others. -/
theorem placesLocations_childAdded {app next : App} (h : app.WellFormed) {key : String}
    {child : Children Value} (hnext : (app.childAdded key child).result = some next) :
    next.places.length = app.places.length ∧ next.placesLocations = app.placesLocations ∨
      next.places.length = app.places.length + 1 := by
  obtain ⟨decoded, newPlace, requests, _, _, rfl⟩ := App.exists_of_childAdded hnext
  simp only [App.places_refresh]
  split_ifs
  · exact Or.inr (List.length_append ..)
  · refine Or.inl ⟨rfl, List.map_congr_left fun ref href ↦ ?_⟩
    rw [App.heap_refresh, Heap.read_alloc_of_lt _ _ (h.live ref href)]

/-! ### Runs -/

/-- The app with the map of its locator page. `grown` says whether an entry has arrived since the
last fix, and `located` whether the last action was a fix. -/
structure PlacesMap where
  app : App
  view : Locator
  grown : Bool
  located : Bool

namespace PlacesMap

/-- What happens to the map. `showUser` adds or removes the annotation of the user. -/
inductive Action
  | childAdded (key : String) (child : Children Value)
  | showUser (shown : Bool)
  | locate (fix : Fix)

/-- The map of a new locator page. -/
def opened (app : App) (view : Locator) : PlacesMap := ⟨app, view, false, false⟩

section Step

variable (distanceBetween : Point → Point → ℚ)

def step (map : PlacesMap) : Action → Option PlacesMap
  | .childAdded key child => (map.app.childAdded key child).result.map fun app ↦
      { map with
        app
        grown := map.grown || app.places.length != map.app.places.length
        located := false }
  | .showUser shown =>
    some { map with view := { map.view with userAnnotation := shown }, located := false }
  | .locate fix =>
    let updated := locationUpdated distanceBetween map.app map.view fix
    some ⟨updated.1, updated.2, false, true⟩

end Step

/-- After a fix the map carries one annotation for each entry of the store, with its name and
coordinate, and no other. -/
def Current (map : PlacesMap) : Prop :=
  map.located = true → map.view.annotations.Perm map.app.placesLocations

/-- A fix finds no place annotation, or at least two annotations and no new entry. -/
def Settled (map : PlacesMap) : Action → Prop
  | .locate _ => map.view.annotations = [] ∨ 1 < map.view.annotationsCount ∧ map.grown = false
  | _ => True

/-- What the map carries between two fixes: nothing, or the annotations of the entries, which may be
more by now. -/
def Tracked (map : PlacesMap) : Prop :=
  map.view.annotations = [] ∨
    map.grown = true ∧ map.view.annotations.length < map.app.places.length ∨
    map.grown = false ∧ map.view.annotations.Perm map.app.placesLocations

structure Invariant (map : PlacesMap) : Prop where
  store : map.app.WellFormed
  tracked : map.located = false → map.Tracked
  fresh : map.located = true → map.grown = false

variable {distanceBetween : Point → Point → ℚ} {map next : PlacesMap} {action : Action}

theorem Invariant.tracked_of_current (h : Invariant map) (hcurrent : map.Current) :
    map.Tracked := by
  cases hlocated : map.located with
  | false => exact h.tracked hlocated
  | true => exact Or.inr (Or.inr ⟨h.fresh hlocated, hcurrent hlocated⟩)

theorem Invariant.step (h : Invariant map) (hcurrent : map.Current)
    (hstep : PlacesMap.step distanceBetween map action = some next) : Invariant next := by
  have htracked := h.tracked_of_current hcurrent
  cases action with
  | childAdded key child =>
    obtain ⟨app, happ, rfl⟩ := Option.map_eq_some_iff.mp hstep
    refine ⟨h.store.childAdded happ, fun _ ↦ ?_, fun hlocated ↦ nomatch hlocated⟩
    have hlength := length_placesLocations map.app
    rcases htracked with hnone | ⟨hgrown, hfewer⟩ | ⟨hgrown, hperm⟩
    · exact Or.inl hnone
    · refine Or.inr (Or.inl ⟨by rw [hgrown, Bool.true_or], ?_⟩)
      rcases placesLocations_childAdded h.store happ with ⟨hsame, _⟩ | hmore <;>
        show map.view.annotations.length < app.places.length <;> omega
    · rcases placesLocations_childAdded h.store happ with ⟨hsame, hlocations⟩ | hmore
      · refine Or.inr (Or.inr ⟨?_, hlocations ▸ hperm⟩)
        rw [hgrown, Bool.false_or, hsame, bne_self_eq_false]
      · refine Or.inr (Or.inl ⟨?_, ?_⟩)
        · rw [hmore]
          simp
        · show map.view.annotations.length < app.places.length
          rw [hperm.length_eq]
          omega
  | showUser shown =>
    obtain rfl := Option.some.inj hstep
    exact ⟨h.store, fun _ ↦ htracked, fun hlocated ↦ nomatch hlocated⟩
  | locate fix =>
    obtain rfl := Option.some.inj hstep
    have hsame := sameButVisitors_locationUpdated distanceBetween map.app map.view fix
    exact ⟨hsame.wellFormed h.store, fun hlocated ↦ (nomatch hlocated), fun _ ↦ rfl⟩

/-- A step ends with a current map exactly if it is settled. -/
theorem current_step_iff (h : Invariant map) (hcurrent : map.Current)
    (hstep : PlacesMap.step distanceBetween map action = some next) :
    next.Current ↔ map.Settled action := by
  have htracked := h.tracked_of_current hcurrent
  cases action with
  | childAdded key child =>
    obtain ⟨app, happ, rfl⟩ := Option.map_eq_some_iff.mp hstep
    exact ⟨fun _ ↦ trivial, fun _ hlocated ↦ nomatch hlocated⟩
  | showUser shown =>
    obtain rfl := Option.some.inj hstep
    exact ⟨fun _ ↦ trivial, fun _ hlocated ↦ nomatch hlocated⟩
  | locate fix =>
    obtain rfl := Option.some.inj hstep
    have hshown : PlacesMap.Current ⟨(locationUpdated distanceBetween map.app map.view fix).1,
        (locationUpdated distanceBetween map.app map.view fix).2, false, true⟩ ↔
          (if map.view.annotationsCount ≤ 1 then map.view.annotations ++ map.app.placesLocations
            else map.view.annotations).Perm map.app.placesLocations := by
      simp only [Current, forall_const, annotations_locationUpdated,
        (sameButVisitors_locationUpdated distanceBetween map.app map.view fix).placesLocations]
    rw [hshown, Settled]
    split_ifs with hfew
    · -- the bulk insertion doubles whatever the map carries
      constructor
      · intro hperm
        have hlength := hperm.length_eq
        rw [List.length_append, Nat.add_eq_right] at hlength
        exact Or.inl (List.eq_nil_of_length_eq_zero hlength)
      · rintro (hnone | ⟨hmany, _⟩)
        · rw [hnone, List.nil_append]
        · exact absurd hfew (Nat.not_le_of_lt hmany)
    · -- the map stays as it is, and lacks the entries that have arrived since the last fix
      have hsome : map.view.annotations ≠ [] := fun hnone ↦
        hfew (Locator.annotationsCount_le_one hnone)
      have htracked := htracked.resolve_left hsome
      constructor
      · intro hperm
        refine Or.inr ⟨Nat.lt_of_not_le hfew, ?_⟩
        rcases htracked with ⟨_, hfewer⟩ | ⟨hgrown, _⟩
        · rw [← length_placesLocations, hperm.length_eq] at hfewer
          exact absurd hfewer (Nat.lt_irrefl _)
        · exact hgrown
      · rintro (hnone | ⟨_, hgrown⟩)
        · exact absurd hnone hsome
        · rcases htracked with ⟨hgrew, _⟩ | ⟨_, hperm⟩
          · exact absurd (hgrown.symm.trans hgrew) Bool.false_ne_true
          · exact hperm

/-- Assumes: a run from a map without place annotations, over a well formed store, with or without
the annotation of the user. After every fix of the run the map carries exactly one annotation for
each entry of the store precisely when every fix finds no place annotation, or at least two
annotations and no entry that has arrived since the fix before. -/
theorem current_iff {app : App} {view : Locator} {final : PlacesMap} {actions : List Action}
    (hwell : app.WellFormed) (hannotations : view.annotations = [])
    (hrun : PartialRun.run (step distanceBetween) (opened app view) actions = some final) :
    PartialRun.Throughout (step distanceBetween) Current (opened app view) actions ↔
      PartialRun.Guarded (step distanceBetween) Settled (opened app view) actions := by
  have hstart : Invariant (opened app view) :=
    ⟨hwell, fun _ ↦ Or.inl hannotations, fun hlocated ↦ nomatch hlocated⟩
  have hcurrent : Current (opened app view) := fun hlocated ↦ nomatch hlocated
  exact PartialRun.throughout_iff_guarded
    (fun map action next h hproperty hstep ↦ Invariant.step h hproperty hstep)
    (fun map action next h hproperty hstep ↦ current_step_iff h hproperty hstep)
    hstart hcurrent hrun

/-- The app of a user after launch. -/
def sampleLaunched : App := App.launched (some "ana") ∅ App.sampleDirectories

/-- A place arrives before the first fix, and the annotation of the user is on the map at the
second. -/
theorem current_iff_sample : ∃ final,
    PartialRun.run (step sampleDistance) (opened sampleLaunched Locator.loaded)
      [.childAdded "boyana" sampleRecord.snapshot, .locate ⟨⟨92, 23⟩, none⟩, .showUser true,
        .locate ⟨⟨92, 23⟩, none⟩] = some final ∧
    (PartialRun.Throughout (step sampleDistance) Current
        (opened sampleLaunched Locator.loaded)
        [.childAdded "boyana" sampleRecord.snapshot, .locate ⟨⟨92, 23⟩, none⟩, .showUser true,
          .locate ⟨⟨92, 23⟩, none⟩] ↔
      PartialRun.Guarded (step sampleDistance) Settled
        (opened sampleLaunched Locator.loaded)
        [.childAdded "boyana" sampleRecord.snapshot, .locate ⟨⟨92, 23⟩, none⟩, .showUser true,
          .locate ⟨⟨92, 23⟩, none⟩]) := by
  have hwell : sampleLaunched.WellFormed :=
    ⟨fun _ href ↦ (List.not_mem_nil href).elim, List.nodup_nil⟩
  have hruns : (PartialRun.run (step sampleDistance)
      (opened sampleLaunched Locator.loaded)
      [.childAdded "boyana" sampleRecord.snapshot, .locate ⟨⟨92, 23⟩, none⟩, .showUser true,
        .locate ⟨⟨92, 23⟩, none⟩]).isSome = true := by decide +kernel
  obtain ⟨final, hrun⟩ := Option.isSome_iff_exists.mp hruns
  exact ⟨final, hrun, current_iff hwell rfl hrun⟩

/-- A store with one place, and no annotation of the user: the second fix shows the place twice. -/
theorem current_counterexample :
    sampleApp.places.length = 1 ∧
      ¬ PartialRun.Throughout (step sampleDistance) Current (opened sampleApp Locator.loaded)
        [.locate ⟨⟨92, 23⟩, none⟩, .locate ⟨⟨92, 23⟩, none⟩] := by
  refine ⟨rfl, fun hcurrent ↦ ?_⟩
  have hruns : (PartialRun.run (step sampleDistance) (opened sampleApp Locator.loaded)
      [.locate ⟨⟨92, 23⟩, none⟩, .locate ⟨⟨92, 23⟩, none⟩]).map (fun final ↦
        decide (final.located = true ∧ final.view.annotations.length = 2 ∧
          final.app.placesLocations.length = 1)) = some true := by decide +kernel
  obtain ⟨final, hrun, hdoubled⟩ := Option.map_eq_some_iff.mp hruns
  obtain ⟨hlocated, htwo, hone⟩ := of_decide_eq_true hdoubled
  have hlength := (PartialRun.final_of_throughout hcurrent hrun hlocated).length_eq
  rw [htwo, hone] at hlength
  exact absurd hlength (by decide)

end PlacesMap

end BeenHere
