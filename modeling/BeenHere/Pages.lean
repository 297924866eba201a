import BeenHere.App

/-!
# List pages and detail pages

How pages are opened and closed. Every list page, the main list and the page of the visited places
alike, copies the array of the store in `viewDidLoad` and makes itself the delegate of the store;
the reference to the delegate is weak, so it is gone when the page is. A detail page is opened from
a row of a list page: `prepare` hands it the object of the row and loads the images of the place
into that object, unless an image name leads to a directory (`isSome_prepare_iff`). Opening a page
changes nothing that a record holds (`exists_of_openDetail`).
-/

set_option autoImplicit false
set_option relaxedAutoImplicit false

namespace BeenHere

open ObjectHeap Traced

namespace App

/-! ### List pages -/

/-- Loads a list page: `viewDidLoad` up to `downloadDatabasePlacesData`. -/
def openList (app : App) (showOnlyVisited : Bool) : Method App := do
  let places ← app.copyPlaces showOnlyVisited
  return { app with
    listPages := Function.update app.listPages app.nextPage (some ⟨showOnlyVisited, places⟩)
    delegate := some app.nextPage
    nextPage := app.nextPage + 1 }

/-- `tableViewCellTapped` in the first row of the profile, which opens the visited places if there
are any. -/
def openMyPlaces (app : App) : Method App := do
  let places ← app.evaluateVisitedPlaces
  choose (places.length > 0) (app.openList true) (pure app)

/-- Closes a list page, which is released. -/
def closeList (app : App) (page : PageId) : App :=
  { app with
    listPages := Function.update app.listPages page none
    delegate := if app.delegate = some page then none else app.delegate }

theorem exists_of_openList {app next : App} {showOnlyVisited : Bool}
    (h : (app.openList showOnlyVisited).result = some next) :
    ∃ places, app.listed showOnlyVisited = some places ∧
      next = { app with
        listPages := Function.update app.listPages app.nextPage (some ⟨showOnlyVisited, places⟩)
        delegate := some app.nextPage
        nextPage := app.nextPage + 1 } := by
  obtain ⟨places, hplaces, hnext⟩ := Option.bind_eq_some_iff.mp h
  exact ⟨places, hplaces, (Option.some.inj hnext).symm⟩

theorem cases_of_openMyPlaces {app next : App} (h : app.openMyPlaces.result = some next) :
    (app.openList true).result = some next ∨ next = app := by
  obtain ⟨places, _, hopened⟩ := Option.bind_eq_some_iff.mp h
  simp only [choose] at hopened
  split_ifs at hopened
  · exact Or.inl hopened
  · exact Or.inr (Option.some.inj hopened).symm

/-! ### Detail pages -/

/-- One round of the loop of `prepare` over the image names of the place. -/
def prepareImage (place : Ref) (app : App) (image : String) : Option App := do
  match ← app.imageExistsForName image with
  | some data =>
    return if (app.heap.read place).placeImages.lookup image = none then
      app.setImage place image data
    else app
  | none => return app.getPlacesDataForPlace place

def prepare (app : App) (place : Ref) : Option App :=
  (app.heap.read place).imageNames.foldlM (prepareImage place) app

/-- Opens the detail page of a row of a list page. -/
def openDetail (app : App) (page : PageId) (row : ℕ) : Option App := do
  let list ← app.listPages page
  let place ← list.places[row]?
  let prepared ← app.prepare place
  return { prepared with
    detailPages := Function.update prepared.detailPages prepared.nextPage
      (some ⟨place, (prepared.heap.read place).placeImages⟩)
    nextPage := prepared.nextPage + 1 }

/-- Closes a detail page, which is released. -/
def closeDetail (app : App) (page : PageId) : App :=
  { app with detailPages := Function.update app.detailPages page none }

/-! ### What opening a detail page does -/

/-- Two heaps that differ in the image data of one object. -/
def SameButImages (place : Ref) (first second : Heap Place) : Prop :=
  second.next = first.next ∧
    (∀ ref, (second.read ref).withoutImages = (first.read ref).withoutImages) ∧
    ∀ ref, ref ≠ place → second.read ref = first.read ref

theorem SameButImages.trans {place : Ref} {first second third : Heap Place}
    (hfirst : SameButImages place first second) (hsecond : SameButImages place second third) :
    SameButImages place first third :=
  ⟨hsecond.1.trans hfirst.1, fun ref ↦ (hsecond.2.1 ref).trans (hfirst.2.1 ref),
    fun ref hne ↦ (hsecond.2.2 ref hne).trans (hfirst.2.2 ref hne)⟩

theorem sameButImages_setImage (app : App) (place : Ref) (name : String) (data : Data) :
    SameButImages place app.heap (app.setImage place name data).heap :=
  ⟨rfl, app.heap.view_read_write _ Place.withoutImages rfl,
    fun _ hne ↦ Heap.read_write_of_ne _ _ hne⟩

/-- No object loses an image. -/
def ImagesGrow (before after : Heap Place) : Prop :=
  ∀ ref name, (before.read ref).placeImages.lookup name ≠ none →
    (after.read ref).placeImages.lookup name ≠ none

theorem imagesGrow_setImage (app : App) (place : Ref) (name : String) (data : Data) :
    ImagesGrow app.heap (app.setImage place name data).heap := by
  intro ref other hloaded
  by_cases href : ref = place
  · rw [href] at hloaded
    rw [href, setImage, Heap.read_write_self]
    by_cases hother : other = name
    · rw [hother, Finmap.lookup_insert]
      exact Option.some_ne_none data
    · rw [Finmap.lookup_insert_of_ne _ hother]
      exact hloaded
  · rw [setImage, Heap.read_write_of_ne _ _ href]
    exact hloaded

section Prepare

variable {app next prepared : App} {place : Ref} {image : String}

/-- A round of `prepare` loads the image, leaves it, or requests the images of the place. -/
theorem cases_of_prepareImage (h : prepareImage place app image = some next) :
    app.directories image = false ∧
      ((∃ data, app.documents.lookup image = some data ∧
          ((app.heap.read place).placeImages.lookup image = none ∧
              next = app.setImage place image data ∨
            (app.heap.read place).placeImages.lookup image ≠ none ∧ next = app)) ∨
        app.documents.lookup image = none ∧ next = app.getPlacesDataForPlace place) := by
  obtain ⟨found, hfound, hnext⟩ := Option.bind_eq_some_iff.mp h
  unfold imageExistsForName at hfound
  split_ifs at hfound with hdirectory
  refine ⟨Bool.not_eq_true _ ▸ hdirectory, ?_⟩
  rw [Option.some.inj hfound]
  cases found with
  | none => exact Or.inr ⟨rfl, (Option.some.inj hnext).symm⟩
  | some data =>
    refine Or.inl ⟨data, rfl, ?_⟩
    by_cases hmissing : (app.heap.read place).placeImages.lookup image = none
    · simp only [if_pos hmissing] at hnext
      exact Or.inl ⟨hmissing, (Option.some.inj hnext).symm⟩
    · simp only [if_neg hmissing] at hnext
      exact Or.inr ⟨hmissing, (Option.some.inj hnext).symm⟩

/-- The rule for `prepare`. Assumes: a property that the app has and that every round keeps. -/
theorem prepare_rule (property : App → Prop) (happ : property app)
    (hround : ∀ before image after, image ∈ (app.heap.read place).imageNames → property before →
      prepareImage place before image = some after → property after)
    (h : app.prepare place = some prepared) : property prepared := by
  have hloop (names : List String) (before : App) (hbefore : property before)
      (hnames : ∀ image ∈ names, image ∈ (app.heap.read place).imageNames)
      (hlast : names.foldlM (prepareImage place) before = some prepared) : property prepared := by
    induction names generalizing before with
    | nil => exact Option.some.inj hlast ▸ hbefore
    | cons image rest ih =>
      obtain ⟨after, hafter, hrest⟩ := Option.bind_eq_some_iff.mp hlast
      exact ih after (hround before image after (hnames image List.mem_cons_self) hbefore hafter)
        (fun other hother ↦ hnames other (List.mem_cons_of_mem _ hother)) hrest
  exact hloop _ app happ (fun _ himage ↦ himage) h

/-- `prepare` changes the image data of the object and the requests to the storage. -/
theorem exists_of_prepare (h : app.prepare place = some prepared) :
    ∃ heap requests, prepared = { app with heap := heap, requests := requests } ∧
      SameButImages place app.heap heap := by
  refine prepare_rule (fun state ↦ ∃ heap requests,
    state = { app with heap := heap, requests := requests } ∧ SameButImages place app.heap heap)
    ⟨app.heap, app.requests, rfl, rfl, fun _ ↦ rfl, fun _ _ ↦ rfl⟩ ?_ h
  rintro before image after _ ⟨heap, requests, rfl, hsame⟩ hround
  rcases (cases_of_prepareImage hround).2 with ⟨data, _, ⟨_, rfl⟩ | ⟨_, rfl⟩⟩ | ⟨_, rfl⟩
  · exact ⟨_, requests, rfl, hsame.trans (sameButImages_setImage ..)⟩
  · exact ⟨heap, requests, rfl, hsame⟩
  · exact ⟨heap, _, rfl, hsame⟩

/-- What the rounds of `prepare` over some image names do. An image that is not loaded is copied
from the documents directory, and each name that is not there requests all images of the place. -/
structure Prepared (place : Ref) (names : List String) (before after : App) : Prop where
  documents : after.documents = before.documents
  imageNames : (after.heap.read place).imageNames = (before.heap.read place).imageNames
  images : ∀ name, (after.heap.read place).placeImages.lookup name =
    if name ∈ names then
      ((before.heap.read place).placeImages.lookup name).or (before.documents.lookup name)
    else (before.heap.read place).placeImages.lookup name
  requests : after.requests = before.requests ++ names.flatMap fun name ↦
    if before.documents.lookup name = none then
      (before.heap.read place).imageNames.map fun image ↦ ⟨place, image, .allImages⟩
    else []

theorem Prepared.trans {first second : List String} {before middle after : App}
    (hfirst : Prepared place first before middle) (hsecond : Prepared place second middle after) :
    Prepared place (first ++ second) before after := by
  refine ⟨hsecond.documents.trans hfirst.documents, hsecond.imageNames.trans hfirst.imageNames,
    fun name ↦ ?_, ?_⟩
  · rw [hsecond.images, hfirst.images, hfirst.documents]
    by_cases hlast : name ∈ second <;> by_cases hearly : name ∈ first <;>
      simp [hlast, hearly, Option.or_assoc]
  · rw [hsecond.requests, hfirst.requests, hfirst.documents, hfirst.imageNames,
      List.flatMap_append, List.append_assoc]

theorem prepared_prepareImage (h : prepareImage place app image = some next) :
    Prepared place [image] app next := by
  have hrequests (data : Data) (hdata : app.documents.lookup image = some data)
      (requests : List ImageRequest) : requests = requests ++ [image].flatMap fun name ↦
        if app.documents.lookup name = none then
          (app.heap.read place).imageNames.map fun image ↦ ⟨place, image, .allImages⟩
        else [] := by
    simp [hdata]
  rcases (cases_of_prepareImage h).2 with
    ⟨data, hdata, ⟨hmissing, rfl⟩ | ⟨hloaded, rfl⟩⟩ | ⟨hdata, rfl⟩
  · refine ⟨rfl, by rw [setImage, Heap.read_write_self], fun other ↦ ?_, hrequests data hdata _⟩
    rw [setImage, Heap.read_write_self]
    by_cases hother : other = image
    · rw [hother, Finmap.lookup_insert, if_pos (List.mem_singleton_self image), hmissing,
        Option.none_or, hdata]
    · rw [Finmap.lookup_insert_of_ne _ hother, if_neg (by simpa using hother)]
  · refine ⟨rfl, rfl, fun other ↦ ?_, hrequests data hdata _⟩
    split_ifs with hother
    · rw [List.mem_singleton.mp hother]
      exact (Option.or_of_isSome (Option.isSome_iff_ne_none.mpr hloaded)).symm
    · rfl
  · refine ⟨rfl, rfl, fun other ↦ ?_, by simp [getPlacesDataForPlace, hdata]⟩
    split_ifs with hother
    · rw [List.mem_singleton.mp hother, hdata, Option.or_none]
      rfl
    · rfl

theorem prepared_prepare (h : app.prepare place = some prepared) :
    Prepared place (app.heap.read place).imageNames app prepared := by
  rw [prepare] at h
  generalize (app.heap.read place).imageNames = names at h
  induction names generalizing app with
  | nil => exact Option.some.inj h ▸ ⟨rfl, rfl, fun _ ↦ rfl, (List.append_nil _).symm⟩
  | cons name rest ih =>
    obtain ⟨next, hround, hrest⟩ := Option.bind_eq_some_iff.mp h
    exact (prepared_prepareImage hround).trans (ih hrest)

/-- `prepare` traps exactly if an image name leads to a directory. -/
theorem isSome_prepare_iff : (app.prepare place).isSome ↔
    ∀ name ∈ (app.heap.read place).imageNames, app.directories name = false := by
  rw [prepare]
  generalize (app.heap.read place).imageNames = names
  induction names generalizing app with
  | nil => simp
  | cons name rest ih =>
    rw [List.foldlM_cons, List.forall_mem_cons]
    cases hround : prepareImage place app name with
    | none =>
      refine iff_of_false (by simp) fun ⟨hfile, _⟩ ↦ ?_
      rw [prepareImage, imageExistsForName, if_neg (by simp [hfile])] at hround
      cases hlookup : app.documents.lookup name <;> simp [hlookup] at hround
    | some next =>
      have hdirectories : next.directories = app.directories := by
        rcases (cases_of_prepareImage hround).2 with
          ⟨data, _, ⟨_, rfl⟩ | ⟨_, rfl⟩⟩ | ⟨_, rfl⟩ <;> rfl
      rw [and_iff_right (cases_of_prepareImage hround).1, ← hdirectories]
      exact ih

/-- `prepare` loses no image. -/
theorem imagesGrow_prepare (h : app.prepare place = some prepared) :
    ImagesGrow app.heap prepared.heap := by
  have himages := (prepared_prepare h).images
  obtain ⟨heap, requests, rfl, hsame⟩ := exists_of_prepare h
  intro ref name hloaded
  by_cases href : ref = place
  · rw [href] at hloaded
    rw [href, himages]
    split_ifs
    · rwa [Option.or_of_isSome (Option.isSome_iff_ne_none.mpr hloaded)]
    · exact hloaded
  · rw [hsame.2.2 ref href]
    exact hloaded

end Prepare

/-- What is opened is the prepared object of the row. -/
theorem exists_prepared_of_openDetail {app next : App} {page : PageId} {row : ℕ}
    (h : app.openDetail page row = some next) :
    ∃ list place prepared, app.listPages page = some list ∧ list.places[row]? = some place ∧
      app.prepare place = some prepared ∧
      next = { prepared with
        detailPages := Function.update prepared.detailPages prepared.nextPage
          (some ⟨place, (prepared.heap.read place).placeImages⟩)
        nextPage := prepared.nextPage + 1 } := by
  simp only [openDetail, Option.bind_eq_bind, Option.bind_eq_some_iff] at h
  obtain ⟨list, hlist, place, hplace, prepared, hprepare, hnext⟩ := h
  exact ⟨list, place, prepared, hlist, hplace, hprepare, (Option.some.inj hnext).symm⟩

theorem exists_of_openDetail {app next : App} {page : PageId} {row : ℕ}
    (h : app.openDetail page row = some next) :
    ∃ list place heap requests, app.listPages page = some list ∧ list.places[row]? = some place ∧
      SameButImages place app.heap heap ∧ ImagesGrow app.heap heap ∧
      next = { app with
        heap := heap
        requests := requests
        detailPages := Function.update app.detailPages app.nextPage
          (some ⟨place, (heap.read place).placeImages⟩)
        nextPage := app.nextPage + 1 } := by
  obtain ⟨list, place, prepared, hlist, hrow, hprepare, rfl⟩ := exists_prepared_of_openDetail h
  have hgrow := imagesGrow_prepare hprepare
  obtain ⟨heap, requests, rfl, hsame⟩ := exists_of_prepare hprepare
  exact ⟨list, place, heap, requests, hlist, hrow, hsame, hgrow, rfl⟩

end App

end BeenHere
