import BeenHere.Network
import BeenHere.Pages

/-!
# Where the app traps

`visitedPlaces` forces the current user for every entry of the store, so it traps exactly if nobody
is signed in and there is an entry (`isSome_visitedPlaces_iff`). A notification evaluates it if the
delegate is a page of the visited places (`isSome_notify_iff`). An observer also forces the first
image name of the record. The one of `childAdded` then looks for a file of this name, and traps if
the name leads to a directory; the one of `childChanged` forces the range of the store
(`isSome_childAdded_iff`, `isSome_childChanged_iff`).
-/

set_option autoImplicit false
set_option relaxedAutoImplicit false

namespace BeenHere

open Firebase ObjectHeap Traced

/-- A snapshot that is decoded to a place with an image. -/
def HasImage (key : String) (child : Children Value) : Prop :=
  ∃ place, Place.placeFromDictionary child key = some place ∧ place.imageNames ≠ []

/-- A snapshot that is decoded to a place with an image, whose first image name does not lead to a
directory. -/
def Complete (directories : String → Bool) (key : String) (child : Children Value) : Prop :=
  ∃ place name, Place.placeFromDictionary child key = some place ∧
    place.imageNames.head? = some name ∧ directories name = false

theorem Complete.hasImage {directories : String → Bool} {key : String} {child : Children Value}
    (h : Complete directories key child) : HasImage key child := by
  obtain ⟨place, name, hdecoded, hname, _⟩ := h
  refine ⟨place, hdecoded, fun hempty ↦ ?_⟩
  rw [hempty] at hname
  cases hname

/-- The image names of a decoded place are those that the observer of `childAdded` casts, if there
are any. -/
theorem asStringArray_images {key : String} {child : Children Value} {place : Place}
    (hdecoded : Place.placeFromDictionary child key = some place) {name : String} :
    (∃ images, (child "images").bind Value.asStringArray = some images ∧
      images.head? = some name) ↔ place.imageNames.head? = some name := by
  have himages := (Place.decodes_iff.mp hdecoded).images
  cases hvalue : child "images" with
  | none =>
    rw [hvalue] at himages
    rw [← Option.some.inj himages]
    simp
  | some value =>
    rw [hvalue] at himages
    have hcast : value.asStringArray = some place.imageNames := himages
    simp [hcast]

namespace App

variable {app : App}

theorem isSome_visitedPlaces (h : app.currentUser.isSome) : app.visitedPlaces.isSome := by
  obtain ⟨uid, huser⟩ := Option.isSome_iff_exists.mp h
  have hloop (places visited : List Ref) : (places.foldlM app.visitedStep visited).isSome := by
    induction places generalizing visited with
    | nil => rfl
    | cons place rest ih =>
      have hround : ∃ next, app.visitedStep visited place = some next := by
        rw [visitedStep, huser, Option.bind_some]
        split <;> exact ⟨_, rfl⟩
      obtain ⟨next, hnext⟩ := hround
      rw [List.foldlM_cons, hnext]
      exact ih next
  exact hloop app.places []

/-- `visitedPlaces` traps exactly if nobody is signed in and the store is not empty. -/
theorem isSome_visitedPlaces_iff :
    app.visitedPlaces.isSome ↔ app.currentUser.isSome ∨ app.places = [] := by
  constructor
  · intro hsome
    refine or_iff_not_imp_left.mpr fun huser ↦ ?_
    rw [Option.not_isSome_iff_eq_none] at huser
    rw [visitedPlaces] at hsome
    cases hplaces : app.places with
    | nil => rfl
    | cons place rest =>
      rw [hplaces, List.foldlM_cons, visitedStep, huser] at hsome
      cases hsome
  · rintro (huser | hempty)
    · exact isSome_visitedPlaces huser
    · rw [visitedPlaces, hempty]
      rfl

/-! ### Notifications -/

/-- The delegate is an open page of the visited places. -/
def ShowsVisited (app : App) : Prop :=
  ∃ page list, app.delegate = some page ∧ app.listPages page = some list ∧
    list.showOnlyVisited = true

theorem showsVisited_refresh : app.refresh.ShowsVisited ↔ app.ShowsVisited := by
  constructor
  · rintro ⟨page, list, hdelegate, hlist, hvisited⟩
    have hdelegate : app.delegate = some page := hdelegate
    simp only [refresh, hdelegate, if_true] at hlist
    obtain ⟨before, hbefore, rfl⟩ := Option.map_eq_some_iff.mp hlist
    exact ⟨page, before, hdelegate, hbefore, hvisited⟩
  · rintro ⟨page, list, hdelegate, hlist, hvisited⟩
    refine ⟨page, { list with places := (app.listed list.showOnlyVisited).getD [] }, hdelegate, ?_,
      hvisited⟩
    simp only [refresh, hdelegate, if_true, hlist, Option.map_some]

/-- A notification traps exactly if the delegate shows only visited places, nobody is signed in and
the store is not empty. -/
theorem isSome_notify_iff :
    app.notify.result.isSome ↔ (app.ShowsVisited → app.currentUser.isSome ∨ app.places = []) := by
  unfold notify placesUpdated
  cases hdelegate : app.delegate with
  | none =>
    refine iff_of_true rfl ?_
    rintro ⟨page, list, hpage, _⟩
    rw [hdelegate] at hpage
    cases hpage
  | some page =>
    cases hlist : app.listPages page with
    | none =>
      refine iff_of_true (by simp only [hlist]; rfl) ?_
      rintro ⟨other, list, hother, hopen, _⟩
      rw [hdelegate] at hother
      rw [← Option.some.inj hother, hlist] at hopen
      cases hopen
    | some list =>
      simp only [hlist]
      cases hvisited : list.showOnlyVisited with
      | false =>
        refine iff_of_true rfl ?_
        rintro ⟨other, shown, hother, hopen, honly⟩
        rw [hdelegate] at hother
        rw [← Option.some.inj hother, hlist] at hopen
        rw [← Option.some.inj hopen, hvisited] at honly
        cases honly
      | true =>
        rw [isSome_result_bind_pure]
        exact isSome_visitedPlaces_iff.trans
          ⟨fun h _ ↦ h, fun h ↦ h ⟨page, list, hdelegate, hlist, hvisited⟩⟩

/-! ### Observers -/

theorem isSome_downloadImageFromStorage_iff {place : Ref} :
    (app.downloadImageFromStorage place).result.isSome ↔
      (app.heap.read place).imageNames ≠ [] ∧
        (app.ShowsVisited → app.currentUser.isSome ∨ app.places = []) := by
  rw [downloadImageFromStorage, getDataForImageName]
  cases hnames : (app.heap.read place).imageNames with
  | nil => simp
  | cons name rest =>
    rw [List.head?_cons, result_bind, result_force, Option.bind_some, isSome_notify_iff]
    exact ⟨fun h ↦ ⟨List.cons_ne_nil name rest, h⟩, fun h ↦ h.2⟩

/-- What stays when the first image of a new place is loaded or requested. -/
theorem frame_of_loadFirstImage {place : Ref} {name : String} {loaded : App}
    (h : (app.loadFirstImage place name).result = some loaded) :
    loaded.currentUser = app.currentUser ∧ loaded.places = app.places ∧
      (loaded.ShowsVisited ↔ app.ShowsVisited) := by
  rcases (cases_of_loadFirstImage h).2 with ⟨data, _, rfl⟩ | ⟨_, hrequested⟩
  · exact ⟨rfl, rfl, Iff.rfl⟩
  · obtain ⟨requests, rfl⟩ := exists_of_downloadImageFromStorage hrequested
    exact ⟨rfl, rfl, showsVisited_refresh⟩

theorem places_insertPlace_ne_nil (place : Ref) : (app.insertPlace place).places ≠ [] := by
  unfold insertPlace
  split_ifs with hcontains
  · exact List.append_ne_nil_of_right_ne_nil _ (List.cons_ne_nil _ _)
  · intro hempty
    rw [hempty] at hcontains
    exact hcontains rfl

theorem showsVisited_insertPlace {place : Ref} :
    (app.insertPlace place).ShowsVisited ↔ app.ShowsVisited := by
  rw [insertPlace_eq]
  exact Iff.rfl

theorem currentUser_insertPlace {place : Ref} :
    (app.insertPlace place).currentUser = app.currentUser := by
  rw [insertPlace_eq]

/-- The first image of a new place is loaded or requested unless its name leads to a directory. -/
theorem isSome_loadFirstImage {place : Ref} {name : String} (hname : app.directories name = false)
    (himages : (app.heap.read place).imageNames ≠ [])
    (hauth : app.ShowsVisited → app.currentUser.isSome) :
    (app.loadFirstImage place name).result.isSome := by
  have hfound : app.imageExistsForName name = some (app.documents.lookup name) :=
    if_neg (by simp [hname])
  simp only [loadFirstImage, result_bind, result_force, hfound, Option.bind_some]
  cases app.documents.lookup name with
  | some data => rfl
  | none =>
    exact isSome_downloadImageFromStorage_iff.mpr
      ⟨himages, fun hvisited ↦ Or.inl (hauth hvisited)⟩

/-- The observer of `childAdded` runs exactly on the snapshots that are decoded to a place with an
image whose first name does not lead to a directory, if nobody needs to be signed in for the
delegate or somebody is. -/
theorem isSome_childAdded_iff {key : String} {child : Children Value} :
    (app.childAdded key child).result.isSome ↔
      Complete app.directories key child ∧ (app.ShowsVisited → app.currentUser.isSome) := by
  constructor
  · intro hsome
    obtain ⟨next, hnext⟩ := Option.isSome_iff_exists.mp hsome
    obtain ⟨images, newPlace, name, loaded, himages, hdecoded, hname, hloaded, hnotify⟩ :=
      childAdded_eq_some_iff.mp hnext
    obtain ⟨huser, _, hshows⟩ := frame_of_loadFirstImage hloaded
    refine ⟨⟨newPlace, name, hdecoded, ?_, (cases_of_loadFirstImage hloaded).1⟩, fun hvisited ↦ ?_⟩
    · exact (asStringArray_images hdecoded).mp ⟨images, himages, hname⟩
    · have hlisted := isSome_notify_iff.mp (Option.isSome_of_eq_some hnotify)
        (showsVisited_insertPlace.mpr (hshows.mpr hvisited))
      rw [currentUser_insertPlace, huser] at hlisted
      exact hlisted.resolve_right (places_insertPlace_ne_nil _)
  · rintro ⟨⟨newPlace, name, hdecoded, hname, hfile⟩, hauth⟩
    obtain ⟨images, hcast, hhead⟩ := (asStringArray_images hdecoded).mpr hname
    have himages : newPlace.imageNames ≠ [] := by
      rintro hempty
      rw [hempty] at hname
      cases hname
    have hloads : (loadFirstImage { app with heap := app.heap.alloc newPlace } app.heap.next
        name).result.isSome :=
      isSome_loadFirstImage hfile (by rwa [Heap.read_alloc_next]) hauth
    obtain ⟨loaded, hloaded⟩ := Option.isSome_iff_exists.mp hloads
    obtain ⟨huser, _, hshows⟩ := frame_of_loadFirstImage hloaded
    have hnotifies : (loaded.insertPlace app.heap.next).notify.result.isSome := by
      refine isSome_notify_iff.mpr fun hvisited ↦ Or.inl ?_
      rw [currentUser_insertPlace, huser]
      exact hauth (hshows.mp (showsVisited_insertPlace.mp hvisited))
    obtain ⟨next, hnext⟩ := Option.isSome_iff_exists.mp hnotifies
    exact Option.isSome_of_eq_some (childAdded_eq_some_iff.mpr
      ⟨images, newPlace, name, loaded, hcast, hdecoded, hhead, hloaded, hnext⟩)

theorem replaceEntry_ne_nil (heap : Heap Place) (place : Ref) {refs : List Ref}
    (hrefs : refs ≠ []) : replaceEntry heap place refs ≠ [] := by
  intro hempty
  have hkeys := map_key_replaceEntry heap place refs
  rw [hempty] at hkeys
  exact hrefs (List.map_eq_nil_iff.mp hkeys.symm)

/-- The observer of `childChanged` runs exactly on the snapshots with an image that are decoded, if
the store is not empty, and nobody needs to be signed in for the delegate or somebody is. -/
theorem isSome_childChanged_iff {key : String} {child : Children Value} :
    (app.childChanged key child).result.isSome ↔
      HasImage key child ∧ app.places ≠ [] ∧ (app.ShowsVisited → app.currentUser.isSome) := by
  constructor
  · intro hsome
    obtain ⟨next, hnext⟩ := Option.isSome_iff_exists.mp hsome
    obtain ⟨newPlace, requested, hdecoded, hplaces, hrequested, _⟩ :=
      childChanged_eq_some_iff.mp hnext
    obtain ⟨himages, hlisted⟩ := isSome_downloadImageFromStorage_iff.mp
      (Option.isSome_of_eq_some hrequested)
    simp only [Heap.read_alloc_next] at himages
    exact ⟨⟨newPlace, hdecoded, himages⟩, hplaces, fun hvisited ↦
      (hlisted hvisited).resolve_right (replaceEntry_ne_nil _ _ hplaces)⟩
  · rintro ⟨⟨newPlace, hdecoded, himages⟩, hplaces, hauth⟩
    have hrequests : (downloadImageFromStorage { app with
        heap := app.heap.alloc newPlace
        places := replaceEntry (app.heap.alloc newPlace) app.heap.next app.places }
          app.heap.next).result.isSome := by
      refine isSome_downloadImageFromStorage_iff.mpr ⟨?_, fun hvisited ↦ Or.inl (hauth hvisited)⟩
      simpa using himages
    obtain ⟨requested, hrequested⟩ := Option.isSome_iff_exists.mp hrequests
    obtain ⟨requests, rfl⟩ := exists_of_downloadImageFromStorage hrequested
    have hnotifies : (refresh { app with
        heap := app.heap.alloc newPlace
        places := replaceEntry (app.heap.alloc newPlace) app.heap.next app.places
        requests := requests }).notify.result.isSome := by
      refine isSome_notify_iff.mpr fun hvisited ↦ Or.inl ?_
      have hshows := showsVisited_refresh.mp hvisited
      exact hauth hshows
    obtain ⟨next, hnext⟩ := Option.isSome_iff_exists.mp hnotifies
    exact Option.isSome_of_eq_some
      (childChanged_eq_some_iff.mpr ⟨newPlace, _, hdecoded, hplaces, hrequested, hnext⟩)

/-- When the observers run. -/
theorem isSome_handle_iff {event : Event} :
    (app.handle event).isSome ↔
      HasImage event.key event.child ∧
        (event.kind = .childAdded → Complete app.directories event.key event.child) ∧
        (event.kind = .childChanged → app.places ≠ []) ∧
        (app.ShowsVisited → app.currentUser.isSome) := by
  cases hkind : event.kind with
  | childAdded =>
    simp only [handle, observe, hkind, isSome_childAdded_iff]
    simpa using fun hcomplete _ ↦ Complete.hasImage hcomplete
  | childChanged =>
    simp only [handle, observe, hkind, isSome_childChanged_iff]
    simp

end App

end BeenHere
