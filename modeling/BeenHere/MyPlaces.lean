import BeenHere.Runtime

/-!
# The visited places

Every evaluation of `visitedPlaces` while an app runs: by the first row of the profile, by the page
of the visited places when it is loaded, and by that page as the delegate of the store whenever
`placesUpdated` is called, which an observer and a download do up to twice. The methods record the
states in which they evaluate it, and return only if all the evaluations do (`Traced`). An
evaluation returns, and returns the entries that the user has visited, exactly if a user is signed
in or the store is empty (`returnsMyPlaces_iff`); so it is exact in every run up to the first
evaluation after signing out (`evaluations_exact_iff`).
-/

set_option autoImplicit false
set_option relaxedAutoImplicit false

namespace BeenHere

open Firebase ObjectHeap Traced

namespace App

/-- The states in which an action evaluates `visitedPlaces`, in their order. -/
def evaluations (app : App) (action : RuntimeAction) : List App :=
  (app.runtimeCall action).evaluated

/-! ### One evaluation -/

/-- What `visitedPlaces` is for: the entries that the user has visited, and none for nobody. -/
def myPlaces (app : App) : List Ref :=
  match app.currentUser with
  | some uid => app.places.filter fun ref ↦ (app.heap.read ref).visitors.contains uid
  | none => []

/-- The evaluation returns the visited entries, in the order of the store and with different
keys. -/
def ReturnsMyPlaces (app : App) : Prop :=
  app.visitedPlaces = some app.myPlaces ∧
    (app.myPlaces.map fun ref ↦ (app.heap.read ref).key).Nodup

variable {app : App}

theorem returnsMyPlaces_iff (h : app.WellFormed) :
    app.ReturnsMyPlaces ↔ app.currentUser.isSome ∨ app.places = [] := by
  constructor
  · rintro ⟨hreturns, _⟩
    exact isSome_visitedPlaces_iff.mp (Option.isSome_of_eq_some hreturns)
  · rintro (huser | hempty)
    · obtain ⟨uid, hname⟩ := Option.isSome_iff_exists.mp huser
      have hmine : app.myPlaces =
          app.places.filter fun ref ↦ (app.heap.read ref).visitors.contains uid := by
        rw [myPlaces, hname]
      refine ⟨by rw [visitedPlaces_eq h hname, hmine], ?_⟩
      rw [hmine]
      exact h.keys.sublist (List.Sublist.map _ List.filter_sublist)
    · have hnone : app.myPlaces = [] := by
        rw [myPlaces, hempty]
        cases app.currentUser <;> rfl
      refine ⟨by rw [hnone, visitedPlaces, hempty]; rfl, ?_⟩
      rw [hnone]
      exact List.nodup_nil

/-! ### The evaluations of an action -/

/-- What all states have in common in which a method evaluates `visitedPlaces`, and the state that
it returns: the store is well formed, and the user is the same. -/
structure Serves (user : Option String) (app : App) : Prop where
  store : app.WellFormed
  user : app.currentUser = user

section Methods

variable {user : Option String} (h : app.Serves user)

include h

theorem Serves.copyPlaces (showOnlyVisited : Bool) :
    (app.copyPlaces showOnlyVisited).Satisfies (Serves user) fun _ ↦ True :=
  Satisfies.choose (satisfies_evaluate h fun _ _ ↦ trivial) (satisfies_pure trivial) _

theorem Serves.notify : app.notify.Satisfies (Serves user) (Serves user) := by
  unfold App.notify placesUpdated
  split
  · exact satisfies_pure h
  · split
    · exact satisfies_pure h
    · exact (h.copyPlaces _).bind fun _ _ _ ↦ satisfies_pure ⟨⟨h.store.live, h.store.keys⟩, h.user⟩

theorem Serves.writeImageDataToFile (name : String) (data : Data) (written : Bool) :
    (app.writeImageDataToFile name data written).Satisfies (Serves user) (Serves user) := by
  unfold App.writeImageDataToFile
  split_ifs
  · exact Serves.notify ⟨⟨h.store.live, h.store.keys⟩, h.user⟩
  · exact satisfies_pure h

theorem Serves.setImage (place : Ref) (name : String) (data : Data) :
    (app.setImage place name data).Serves user :=
  ⟨h.store.setImage place name data, h.user⟩

theorem Serves.downloadImageFromStorage (place : Ref) :
    (app.downloadImageFromStorage place).Satisfies (Serves user) (Serves user) :=
  (satisfies_force fun _ _ ↦ trivial).bind fun _ _ _ ↦
    Serves.notify ⟨⟨h.store.live, h.store.keys⟩, h.user⟩

theorem Serves.finishFirstImage (request : ImageRequest) (answer : Option Data) (written : Bool) :
    (app.finishFirstImage request answer written).Satisfies (Serves user) (Serves user) := by
  unfold App.finishFirstImage
  split
  · exact satisfies_pure h
  · split_ifs
    · exact (h.setImage ..).writeImageDataToFile ..
    · exact satisfies_pure h

theorem Serves.storeImage (item : Ref) (name : String) (data : Data) (written : Bool) :
    (app.storeImage item name data written).Satisfies (Serves user) (Serves user) := by
  unfold App.storeImage
  split_ifs
  · exact ((h.setImage item name data).writeImageDataToFile name data written).bind
      fun _ _ hstored ↦ hstored.notify
  · exact satisfies_pure h

theorem Serves.finishPlacesData (request : ImageRequest) (answer : Option Data) (written : Bool) :
    (app.finishPlacesData request answer written).Satisfies (Serves user) fun _ ↦ True := by
  unfold App.finishPlacesData
  split
  · exact satisfies_pure trivial
  · rename_i data
    have hstored (item : Option Ref) : (item.elim (pure app) fun item ↦
        app.storeImage item request.name data written : Method App).Satisfies (Serves user)
          (Serves user) := by
      cases item with
      | none => exact satisfies_pure h
      | some item => exact h.storeImage item request.name data written
    exact (hstored _).bind fun _ _ hstored ↦ hstored.notify.bind fun _ _ _ ↦ satisfies_pure trivial

theorem Serves.loadFirstImage (place : Ref) (name : String) :
    (app.loadFirstImage place name).Satisfies (Serves user) (Serves user) := by
  have hfound : (force (app.imageExistsForName name) : Method (Option Data)).Satisfies
      (Serves user) fun _ ↦ True := satisfies_force fun _ _ ↦ trivial
  refine hfound.bind fun found _ _ ↦ ?_
  cases found with
  | some data => exact satisfies_pure (h.setImage place name data)
  | none => exact h.downloadImageFromStorage place

theorem Serves.childAdded (key : String) (child : Children Value) :
    (app.childAdded key child).Satisfies (Serves user) (Serves user) := by
  refine (satisfies_force fun _ _ ↦ trivial).bind fun images _ _ ↦
    (satisfies_force fun _ _ ↦ trivial).bind fun newPlace _ _ ↦
      (satisfies_force fun _ _ ↦ trivial).bind fun name _ _ ↦ ?_
  have halloc := h.store.alloc newPlace
  refine (Serves.loadFirstImage ⟨halloc, h.user⟩ app.heap.next name).bind
    fun loaded hloaded hserves ↦ Serves.notify ⟨?_, ?_⟩
  · obtain ⟨hstore, hlive⟩ := halloc.loadFirstImage hloaded
    exact hstore.insertPlace (hlive ▸ Nat.lt_succ_self _)
  · exact currentUser_insertPlace.trans hserves.user

theorem Serves.childChanged (key : String) (child : Children Value) :
    (app.childChanged key child).Satisfies (Serves user) (Serves user) := by
  refine (satisfies_force fun _ _ ↦ trivial).bind fun newPlace _ _ ↦
    (satisfies_force fun replaced hreplaced ↦ ?_).bind fun replaced _ hserves ↦
      (Serves.downloadImageFromStorage hserves _).bind fun _ _ hrequested ↦ hrequested.notify
  refine ⟨(h.store.alloc newPlace).replacePlace (Nat.lt_succ_self _) hreplaced, ?_⟩
  obtain ⟨_, rfl⟩ := replacePlace_eq_some_iff.mp hreplaced
  exact h.user

theorem Serves.observe (event : Event) :
    (app.observe event).Satisfies (Serves user) (Serves user) := by
  unfold App.observe
  split
  · exact h.childAdded ..
  · exact h.childChanged ..

theorem Serves.openList (showOnlyVisited : Bool) :
    (app.openList showOnlyVisited).Satisfies (Serves user) (Serves user) :=
  (h.copyPlaces showOnlyVisited).bind fun _ _ _ ↦
    satisfies_pure ⟨⟨h.store.live, h.store.keys⟩, h.user⟩

theorem Serves.openMyPlaces : app.openMyPlaces.Satisfies (Serves user) (Serves user) :=
  (satisfies_evaluate h fun _ _ ↦ trivial).bind fun _ _ _ ↦
    Satisfies.choose (h.openList true) (satisfies_pure h) _

end Methods

/-- Every evaluation of an action finds a well formed store and the same user. -/
theorem serves_of_mem_evaluations (h : app.WellFormed) {action : RuntimeAction} {state : App}
    (hstate : state ∈ app.evaluations action) : state.Serves app.currentUser := by
  have hserves : app.Serves app.currentUser := ⟨h, rfl⟩
  have hremoved (index : ℕ) :
      Serves app.currentUser { app with requests := app.requests.eraseIdx index } :=
    ⟨⟨h.live, h.keys⟩, rfl⟩
  cases action with
  | signIn uid => exact (List.not_mem_nil hstate).elim
  | signOut => exact (List.not_mem_nil hstate).elim
  | finishFirstImage index answer written =>
    exact ((satisfies_force fun _ _ ↦ trivial).bind fun request _ _ ↦
      (hremoved index).finishFirstImage request answer written).evaluated state hstate
  | page action =>
    cases action with
    | openList => exact (hserves.openList false).evaluated state hstate
    | openMyPlaces => exact hserves.openMyPlaces.evaluated state hstate
    | observe event => exact (hserves.observe event).evaluated state hstate
    | finishPlacesData index answer written =>
      exact ((satisfies_force fun _ _ ↦ trivial).bind fun request _ _ ↦
        (hremoved index).finishPlacesData request answer written).evaluated state hstate
    | closeList page => exact (List.not_mem_nil hstate).elim
    | openDetail page row => exact (List.not_mem_nil hstate).elim
    | closeDetail page => exact (List.not_mem_nil hstate).elim

/-- Assumes: a run from launch, under any user or none, and a further action. All evaluations of
`visitedPlaces` in the course of the action return exactly the entries that the user has visited, or
none if nobody is signed in, precisely if a user is signed in or every evaluation finds an empty
store. -/
theorem evaluations_exact_iff {currentUser : Option String} {documents : Dictionary String Data}
    {directories : String → Bool} {actions : List RuntimeAction}
    (hrun : PartialRun.run runtimeStep (launched currentUser documents directories) actions =
      some app)
    (action : RuntimeAction) :
    (∀ state ∈ app.evaluations action, state.ReturnsMyPlaces) ↔
      app.currentUser.isSome ∨ ∀ state ∈ app.evaluations action, state.places = [] := by
  have hstore := (displayed_of_run hrun).store
  have hexact (state : App) (hstate : state ∈ app.evaluations action) :
      state.ReturnsMyPlaces ↔ app.currentUser.isSome ∨ state.places = [] := by
    have hserves := serves_of_mem_evaluations hstore hstate
    rw [returnsMyPlaces_iff hserves.store, hserves.user]
  by_cases huser : app.currentUser.isSome
  · exact iff_of_true (fun state hstate ↦ (hexact state hstate).mpr (Or.inl huser)) (Or.inl huser)
  · rw [or_iff_right huser]
    refine forall₂_congr fun state hstate ↦ ?_
    rw [hexact state hstate, or_iff_right huser]

/-- A change reaches the page of the visited places while its user is signed in. -/
theorem evaluations_exact_iff_sample : ∃ app,
    PartialRun.run runtimeStep (launched (some "ana") ∅ sampleDirectories)
      [.page (.observe (sampleEvent .childAdded visitedPlace)), .page .openMyPlaces] = some app ∧
    (app.evaluations (.page (.observe (sampleEvent .childChanged visitedPlace)))).length = 2 ∧
    ∀ state ∈ app.evaluations (.page (.observe (sampleEvent .childChanged visitedPlace))),
      state.ReturnsMyPlaces := by
  have hruns : (PartialRun.run runtimeStep (launched (some "ana") ∅ sampleDirectories)
      [.page (.observe (sampleEvent .childAdded visitedPlace)), .page .openMyPlaces]).map
        (fun app ↦ decide (app.currentUser.isSome ∧
          (app.evaluations (.page (.observe (sampleEvent .childChanged visitedPlace)))).length =
            2)) = some true := by decide +kernel
  obtain ⟨app, hrun, hfacts⟩ := Option.map_eq_some_iff.mp hruns
  obtain ⟨huser, hlength⟩ := of_decide_eq_true hfacts
  exact ⟨app, hrun, hlength, (evaluations_exact_iff hrun _).mpr (Or.inl huser)⟩

/-- After the user has signed out, the tap on the first row of the profile and an event for the open
page of the visited places trap. -/
theorem evaluations_exact_counterexample : ∃ app,
    PartialRun.run runtimeStep (launched (some "ana") ∅ sampleDirectories)
      [.page (.observe (sampleEvent .childAdded visitedPlace)), .page .openMyPlaces, .signOut] =
        some app ∧
    app.runtimeStep (.page .openMyPlaces) = none ∧
    app.runtimeStep (.page (.observe (sampleEvent .childChanged visitedPlace))) = none ∧
    ¬ ∀ state ∈ app.evaluations (.page .openMyPlaces), state.ReturnsMyPlaces := by
  have hruns : (PartialRun.run runtimeStep (launched (some "ana") ∅ sampleDirectories)
      [.page (.observe (sampleEvent .childAdded visitedPlace)), .page .openMyPlaces,
        .signOut]).map (fun app ↦ decide (app.visitedPlaces = none ∧
          (app.runtimeStep (.page .openMyPlaces)).isNone ∧
          (app.runtimeStep
            (.page (.observe (sampleEvent .childChanged visitedPlace)))).isNone)) = some true := by
    decide +kernel
  obtain ⟨app, hrun, hfacts⟩ := Option.map_eq_some_iff.mp hruns
  obtain ⟨htrap, htap, hevent⟩ := of_decide_eq_true hfacts
  refine ⟨app, hrun, Option.isNone_iff_eq_none.mp htap, Option.isNone_iff_eq_none.mp hevent,
    fun hexact ↦ ?_⟩
  have hreturns := (hexact app List.mem_cons_self).1
  rw [htrap] at hreturns
  cases hreturns

end App

end BeenHere
