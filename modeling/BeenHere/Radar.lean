import BeenHere.Tracking

/-!
# The radar

The radar of `LocatorViewController` is the only sign of tracking. The actions that start tracking
start the radar first, and a visit stops both, wherever in the loop over the places it is recorded.
`locationFailed` stops the radar alone: `CLLocationManager` goes on reporting after most errors, and
a user whose radar stands still is tracked and gets visits recorded. That is the only way there
(`radar_iff`).
-/

set_option autoImplicit false
set_option relaxedAutoImplicit false

namespace BeenHere

open ObjectHeap

/-- The radar turns while locations are tracked. -/
def Locator.ShowsTracking (view : Locator) : Prop := view.tracking = true → view.rotating = true

instance (view : Locator) : Decidable view.ShowsTracking :=
  inferInstanceAs (Decidable (_ → _))

/-- One round of the loop stops the radar and tracking, or leaves both. -/
theorem showsTracking_scanPlace {distanceBetween : Point → Point → ℚ} {location : Point}
    {scan : Scan} (h : scan.view.ShowsTracking) (place : Ref) :
    (scanPlace distanceBetween location scan place).view.ShowsTracking := by
  by_cases hnear : scan.app.distanceTo distanceBetween place location < 500
  · simp only [scanPlace, if_pos hnear]
    split
    · exact fun htracking ↦ Bool.noConfusion htracking
    · exact h
  · simpa only [scanPlace, if_neg hnear] using h

theorem showsTracking_locationUpdated {distanceBetween : Point → Point → ℚ} (app : App)
    {view : Locator} (h : view.ShowsTracking) (fix : Fix) :
    (locationUpdated distanceBetween app view fix).2.ShowsTracking := by
  have hloop (places : List Ref) (scan : Scan) (hscan : scan.view.ShowsTracking) :
      (places.foldl (scanPlace distanceBetween fix.coordinate) scan).view.ShowsTracking := by
    induction places generalizing scan with
    | nil => exact hscan
    | cons place rest ih => exact ih _ (showsTracking_scanPlace hscan place)
  exact hloop app.places _ h

namespace Tracking

variable {distanceBetween : Point → Point → ℚ} {state next : Tracking}

/-- An error comes only while tracking is stopped. -/
def FailsWhenStopped (state : Tracking) (action : Action) : Prop :=
  action = .didFailWithError → state.view.tracking = false

instance (state : Tracking) (action : Action) : Decidable (state.FailsWhenStopped action) :=
  inferInstanceAs (Decidable (_ → _))

theorem showsTracking_getLocationAction (state : Tracking) :
    state.getLocationAction.view.ShowsTracking := by
  intro _
  unfold getLocationAction checkPermission
  split <;> rfl

theorem showsTracking_didUpdateLocations (h : state.view.ShowsTracking)
    (locations : List Location) : (state.didUpdateLocations locations).view.ShowsTracking := by
  unfold didUpdateLocations
  split
  · split_ifs <;> exact h
  · exact h

/-- One step. -/
theorem showsTracking_step (h : state.view.ShowsTracking) {action : Action}
    (hstep : step distanceBetween state action = some next) :
    next.view.ShowsTracking ↔ state.FailsWhenStopped action := by
  cases action with
  | getLocation =>
    rw [← Option.some.inj hstep]
    exact iff_of_true (showsTracking_getLocationAction _) fun hfail ↦ by cases hfail
  | stopLocation | viewWillDisappear =>
    rw [← Option.some.inj hstep]
    exact iff_of_true (fun htracking ↦ Bool.noConfusion htracking) fun hfail ↦ by cases hfail
  | viewDidAppear =>
    rw [← Option.some.inj hstep]
    exact iff_of_true h fun hfail ↦ by cases hfail
  | didChangeAuthorization status =>
    rw [← Option.some.inj hstep]
    refine iff_of_true ?_ fun hfail ↦ by cases hfail
    split_ifs
    · exact showsTracking_getLocationAction _
    · exact h
  | didFailWithError =>
    -- the radar stands still now, and tracking is as it was
    rw [← Option.some.inj hstep]
    refine ⟨fun hshows _ ↦ ?_, fun hguard htracking ↦ ?_⟩
    · by_contra htracking
      exact Bool.noConfusion (hshows (eq_true_of_ne_false htracking))
    · exact absurd ((hguard rfl).symm.trans htracking) Bool.false_ne_true
  | didUpdateLocations locations =>
    unfold step at hstep
    split_ifs at hstep
    rw [← Option.some.inj hstep]
    exact iff_of_true (showsTracking_didUpdateLocations h locations) fun hfail ↦ by cases hfail
  | complete reception answer =>
    obtain ⟨request, _, hfinish⟩ := Option.bind_eq_some_iff.mp hstep
    refine iff_of_true ?_ fun hfail ↦ by cases hfail
    rcases exists_of_finishGeocode hfinish with ⟨_, address, rfl⟩ | ⟨_, rfl⟩
    · exact showsTracking_locationUpdated _ h _
    · exact h

/-- The radar turns whenever locations are tracked, in every state of a run, exactly if no error
comes while they are. -/
theorem radar_iff {app : App} {authorization : AuthorizationStatus} {actions : List Action}
    {final : Tracking}
    (hrun : PartialRun.run (step distanceBetween) (loaded app authorization) actions = some final) :
    PartialRun.Throughout (step distanceBetween) (fun state ↦ state.view.ShowsTracking)
        (loaded app authorization) actions ↔
      PartialRun.Guarded (step distanceBetween) FailsWhenStopped (loaded app authorization)
        actions := by
  have hkeep (state : Tracking) (action : Action) (next : Tracking) (_ : True)
      (_ : state.view.ShowsTracking) (_ : step distanceBetween state action = some next) : True :=
    trivial
  exact PartialRun.throughout_iff_guarded hkeep
    (fun _ _ _ _ hshows hstep ↦ showsTracking_step hshows hstep) trivial
    (fun htracking ↦ Bool.noConfusion htracking) hrun

/-- Tracking goes on behind a radar that an error has stopped, and the next answer records a
visit. -/
theorem radar_iff_sample :
    PartialRun.Throughout (step sampleDistance) (fun state ↦ state.view.ShowsTracking)
        (loaded sampleApp .authorizedWhenInUse)
        [.getLocation, .didUpdateLocations [sampleLocation], .complete 0 .error,
          .didFailWithError] ∧
      ¬ PartialRun.Throughout (step sampleDistance) (fun state ↦ state.view.ShowsTracking)
        (loaded sampleApp .authorizedWhenInUse)
        [.getLocation, .didFailWithError, .didUpdateLocations [sampleLocation],
          .complete 0 .error] := by
  have hstops : (PartialRun.run (step sampleDistance) (loaded sampleApp .authorizedWhenInUse)
      [.getLocation, .didUpdateLocations [sampleLocation], .complete 0 .error,
        .didFailWithError]).isSome := by decide +kernel
  have hgoesOn : (PartialRun.run (step sampleDistance) (loaded sampleApp .authorizedWhenInUse)
      [.getLocation, .didFailWithError, .didUpdateLocations [sampleLocation],
        .complete 0 .error]).isSome := by decide +kernel
  obtain ⟨_, hstopped⟩ := Option.isSome_iff_exists.mp hstops
  obtain ⟨_, hwent⟩ := Option.isSome_iff_exists.mp hgoesOn
  exact ⟨(radar_iff hstopped).mpr (by decide +kernel),
    fun hshows ↦ absurd ((radar_iff hwent).mp hshows) (by decide +kernel)⟩

end Tracking

end BeenHere
