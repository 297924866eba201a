import BeenHere.Library.ObjectHeap
import BeenHere.Library.Traced
import BeenHere.Place

/-!
# One running app

The state of the app on one device and the methods of `Places.sharedInstance`. Places are objects of
a heap: the store, the list pages and the detail pages hold references, and a handler that decodes
a snapshot allocates a new object. A method that can trap returns `none` where it does. A `Method`
that may notify the delegate also says in which states `visitedPlaces` is evaluated on its way; what
it returns is its `result`.

The delegate of the store is a list page, and `notify` is `delegate?.placesUpdated()`: it changes
nothing but the array of that page (`eq_refresh_of_notify`). Each handler has one lemma that says
what it does (`exists_of_childAdded`, `exists_of_childChanged`): the store gets one fresh object,
the requests to the storage and the list pages change, and nothing else.
-/

set_option autoImplicit false
set_option relaxedAutoImplicit false

namespace BeenHere

open Firebase ObjectHeap Traced

/-- Which of the two download methods a storage request comes from. -/
inductive RequestSource
  | firstImage
  | allImages
  deriving DecidableEq

/-- An unanswered `getData` for the image `name`, made for the object `place`. -/
structure ImageRequest where
  place : Ref
  name : String
  source : RequestSource
  deriving DecidableEq

/-- An `updateChildValues` on `Places/<key>` that the server has not applied. -/
structure Write where
  key : String
  values : Children Value

/-- A `PlacesViewController` with its copy of the array of places. -/
structure ListPage where
  showOnlyVisited : Bool
  places : List Ref
  deriving DecidableEq

/-- A `PlaceDetailViewController`: its place, and the image data its strip was last loaded with. -/
structure DetailPage where
  detailPlace : Ref
  strip : Dictionary String Data
  deriving DecidableEq

abbrev PageId := ℕ

/-- The state of the app: the objects, the store, the user, the files of the documents directory and
the names that lead from it to a directory, the requests and writes under way, and the open
pages. -/
structure App where
  heap : Heap Place
  places : List Ref
  currentUser : Option String
  documents : Dictionary String Data
  directories : String → Bool
  requests : List ImageRequest
  outbox : List Write
  delegate : Option PageId
  listPages : PageId → Option ListPage
  detailPages : PageId → Option DetailPage
  nextPage : PageId

namespace App

/-- The app after launch, before any page is loaded, with the images that an earlier run has left in
the documents directory. -/
def launched (currentUser : Option String) (documents : Dictionary String Data)
    (directories : String → Bool) : App where
  heap := ⟨fun _ ↦ Place.init, 0⟩
  places := []
  currentUser := currentUser
  documents := documents
  directories := directories
  requests := []
  outbox := []
  delegate := none
  listPages := fun _ ↦ none
  detailPages := fun _ ↦ none
  nextPage := 0

/-- The names that lead from any directory to itself and to the one above it. -/
def sampleDirectories (name : String) : Bool := name = "" || name = "." || name = ".."

/-- `contains`, which compares places by `isEqual`, that is by key. -/
def containsKey (heap : Heap Place) (refs : List Ref) (key : String) : Bool :=
  refs.any fun ref ↦ (heap.read ref).key = key

/-- One round of the loop of `visitedPlaces`. The user is read anew, and forced, in each round. -/
def visitedStep (app : App) (visitedPlaces : List Ref) (place : Ref) : Option (List Ref) :=
  app.currentUser.bind fun uid ↦
    if (app.heap.read place).visitors.contains uid &&
        containsKey app.heap visitedPlaces (app.heap.read place).key = false then
      some (visitedPlaces ++ [place])
    else some visitedPlaces

def visitedPlaces (app : App) : Option (List Ref) := app.places.foldlM app.visitedStep []

/-- A method that traps where an evaluation of `visitedPlaces` does, and the states in which it
evaluates it. -/
abbrev Method : Type → Type := Traced fun app : App ↦ app.visitedPlaces.isSome = true

def evaluateVisitedPlaces (app : App) : Method (List Ref) := evaluate app app.visitedPlaces id

/-- The array that a list page copies from the store. -/
def copyPlaces (app : App) (showOnlyVisited : Bool) : Method (List Ref) :=
  choose showOnlyVisited app.evaluateVisitedPlaces (pure app.places)

def listed (app : App) (showOnlyVisited : Bool) : Option (List Ref) :=
  (app.copyPlaces showOnlyVisited).result

/-- `PlacesViewController.placesUpdated`. -/
def placesUpdated (app : App) (page : PageId) : Method App :=
  match app.listPages page with
  | none => pure app
  | some list => do
    let places ← app.copyPlaces list.showOnlyVisited
    return { app with
      listPages := Function.update app.listPages page (some { list with places }) }

/-- `delegate?.placesUpdated()`. -/
def notify (app : App) : Method App :=
  match app.delegate with
  | none => pure app
  | some page => app.placesUpdated page

/-! ### Images -/

/-- `getDataForImageName`, up to the answer of the storage. The name is forced. -/
def getDataForImageName (app : App) (place : Ref) : Method App := do
  let name ← force (app.heap.read place).imageNames.head?
  notify { app with requests := app.requests ++ [⟨place, name, .firstImage⟩] }

def downloadImageFromStorage (app : App) (place : Ref) : Method App :=
  app.getDataForImageName place

/-- The data of a file, if there is one. A directory exists as well, but has no contents, which are
forced. -/
def imageExistsForName (app : App) (name : String) : Option (Option Data) :=
  if app.directories name then none else some (app.documents.lookup name)

/-- Sets `placeImages[name]` of an object. -/
def setImage (app : App) (place : Ref) (name : String) (data : Data) : App :=
  { app with
    heap := app.heap.write place
      { app.heap.read place with
        placeImages := (app.heap.read place).placeImages.insert name data } }

/-- `writeImageDataToFile`; the write to the documents directory may fail, and does if the name
leads to a directory. -/
def writeImageDataToFile (app : App) (name : String) (data : Data) (written : Bool) : Method App :=
  if written = true ∧ app.directories name = false then
    notify { app with documents := app.documents.insert name data }
  else pure app

/-- `getPlacesDataForPlace`, up to the answers of the storage: one request for each image name. -/
def getPlacesDataForPlace (app : App) (place : Ref) : App :=
  { app with
    requests := app.requests ++
      (app.heap.read place).imageNames.map fun name ↦ ⟨place, name, .allImages⟩ }

/-- The notification `ReloadData`: every detail page reloads its strip. -/
def reloadData (app : App) : App :=
  { app with
    detailPages := fun page ↦ (app.detailPages page).map fun detail ↦
      { detail with strip := (app.heap.read detail.detailPlace).placeImages } }

/-- The body of the loop over the store for the entry that the data belongs to. -/
def storeImage (app : App) (item : Ref) (name : String) (data : Data) (written : Bool) :
    Method App :=
  if (app.heap.read item).placeImages.lookup name = none then do
    let stored ← (app.setImage item name data).writeImageDataToFile name data written
    stored.notify
  else pure app

/-- The answer to a request of `getPlacesDataForPlace`: the data goes to the first entry of the
store with the key of the place that the request was made for. -/
def finishPlacesData (app : App) (request : ImageRequest) (answer : Option Data) (written : Bool) :
    Method App :=
  match answer with
  | none => pure app
  | some data => do
    let item := app.places.find? fun ref ↦
      (app.heap.read ref).key = (app.heap.read request.place).key
    let stored ← item.elim (pure app) fun item ↦ app.storeImage item request.name data written
    let notified ← stored.notify
    return notified.reloadData

/-! ### The observers -/

/-- The data of the first image of a new place, from the documents directory or else from the
storage. -/
def loadFirstImage (app : App) (place : Ref) (name : String) : Method App := do
  match ← force (app.imageExistsForName name) with
  | some data => return app.setImage place name data
  | none => app.downloadImageFromStorage place

/-- Appends a new place to the store unless the store contains it. -/
def insertPlace (app : App) (place : Ref) : App :=
  if containsKey app.heap app.places (app.heap.read place).key = false then
    { app with places := app.places ++ [place] }
  else app

/-- The observer of `childAdded`. -/
def childAdded (app : App) (key : String) (child : Children Value) : Method App := do
  let images ← force ((child "images").bind Value.asStringArray)
  let newPlace ← force (Place.placeFromDictionary child key)
  let name ← force images.head?
  let place := app.heap.next
  let loaded ← loadFirstImage { app with heap := app.heap.alloc newPlace } place name
  (loaded.insertPlace place).notify

/-- Replaces the first entry that has the key of a new place. -/
def replaceEntry (heap : Heap Place) (place : Ref) : List Ref → List Ref
  | [] => []
  | ref :: rest =>
    if (heap.read ref).key = (heap.read place).key then place :: rest
    else ref :: replaceEntry heap place rest

/-- The loop over `0...places.count-1`; on an empty store the range traps. -/
def replacePlace (app : App) (place : Ref) : Option App :=
  if app.places.length = 0 then none
  else some { app with places := replaceEntry app.heap place app.places }

/-- The observer of `childChanged`. -/
def childChanged (app : App) (key : String) (child : Children Value) : Method App := do
  let newPlace ← force (Place.placeFromDictionary child key)
  let place := app.heap.next
  let replaced ← force (replacePlace { app with heap := app.heap.alloc newPlace } place)
  let requested ← replaced.downloadImageFromStorage place
  requested.notify

/-! ### Visits and ratings -/

/-- `Places.visit` on an object. -/
def visit (app : App) (place : Ref) : Bool × App :=
  match Places.visit app.currentUser (app.heap.read place) with
  | (true, visited) =>
    (true, { app with
      heap := app.heap.write place visited
      outbox := app.outbox ++ [⟨visited.key, Place.dictionaryFromPlace visited⟩] })
  | (false, _) => (false, app)

/-- `Places.rate` on an object. -/
def rate (app : App) (place : Ref) (rating : ℤ) : App :=
  let rated := Places.rate app.currentUser (app.heap.read place) rating
  { app with
    heap := app.heap.write place rated
    outbox := app.outbox ++ [⟨rated.key, Place.dictionaryFromPlace rated⟩] }

/-! ### What the methods do -/

section Calls

variable {app : App} {place : Ref}

theorem visit_of_mem
    (h : Places.visitName app.currentUser (app.heap.read place) ∈
      (app.heap.read place).visitors) : app.visit place = (false, app) := by
  rw [visit, Places.visit_of_mem h]

theorem visit_of_notMem
    (h : Places.visitName app.currentUser (app.heap.read place) ∉
      (app.heap.read place).visitors) :
    app.visit place =
      (true, { app with
        heap := app.heap.write place (Places.visit app.currentUser (app.heap.read place)).2
        outbox := app.outbox ++ [⟨(app.heap.read place).key, Place.dictionaryFromPlace
          (Places.visit app.currentUser (app.heap.read place)).2⟩] }) := by
  rw [visit, Places.visit_of_notMem h]

/-- The app after a call that changes an object and writes its place. -/
def writeBack (app : App) (place : Ref) (changed : Place) : App :=
  { app with
    heap := app.heap.write place changed
    outbox := app.outbox ++ [⟨changed.key, Place.dictionaryFromPlace changed⟩] }

theorem rate_eq (app : App) (place : Ref) (rating : ℤ) :
    app.rate place rating =
      app.writeBack place (Places.rate app.currentUser (app.heap.read place) rating) := rfl

/-- The rule for a visit. Assumes: a property that the app has, and that it has after the visit if
the user is not among the visitors. -/
theorem visit_rule (property : App → Prop) (happ : property app)
    (haccepted : Places.visitName app.currentUser (app.heap.read place) ∉
      (app.heap.read place).visitors →
      property (app.writeBack place (Places.visit app.currentUser (app.heap.read place)).2)) :
    property (app.visit place).2 := by
  by_cases h : Places.visitName app.currentUser (app.heap.read place) ∈
      (app.heap.read place).visitors
  · rw [visit_of_mem h]
    exact happ
  · rw [visit_of_notMem h, ← Places.key_visit app.currentUser]
    exact haccepted h

end Calls

/-! ### Notifications and observers -/

/-- The app after a notification: the page of the delegate, if it is open, copies the store anew. -/
def refresh (app : App) : App :=
  { app with listPages := fun page ↦
      if app.delegate = some page then
        (app.listPages page).map fun list ↦
          { list with places := (app.listed list.showOnlyVisited).getD [] }
      else app.listPages page }

@[simp] theorem heap_refresh (app : App) : app.refresh.heap = app.heap := rfl

@[simp] theorem places_refresh (app : App) : app.refresh.places = app.places := rfl

theorem eq_refresh_of_notify {app next : App} (h : app.notify.result = some next) :
    next = app.refresh := by
  unfold notify at h
  split at h
  · rename_i hdelegate
    have hnone (page : PageId) : ¬ app.delegate = some page := by simp [hdelegate]
    rw [← Option.some.inj h, refresh]
    simp only [hnone, if_false]
  · rename_i delegate hdelegate
    have hpages (changed : Option ListPage)
        (hchanged : (app.listPages delegate).map (fun list ↦
          { list with places := (app.listed list.showOnlyVisited).getD [] }) = changed) :
        app.refresh = { app with
          listPages := Function.update app.listPages delegate changed } := by
      rw [refresh, ← hchanged]
      congr 1
      funext page
      by_cases hpage : page = delegate
      · rw [hpage, if_pos hdelegate, Function.update_self]
      · rw [if_neg (by simp [hdelegate, Ne.symm hpage]), Function.update_of_ne hpage]
    unfold placesUpdated at h
    split at h
    · rename_i hclosed
      rw [hpages none (by rw [hclosed]; rfl), ← hclosed, Function.update_eq_self]
      exact (Option.some.inj h).symm
    · rename_i list hlist
      obtain ⟨places, hplaces, hnext⟩ := Option.bind_eq_some_iff.mp h
      have hplaces : app.listed list.showOnlyVisited = some places := hplaces
      rw [hpages (some { list with places }) (by rw [hlist, Option.map_some, hplaces]; rfl)]
      exact (Option.some.inj hnext).symm

/-- Of two notifications only the second counts. -/
theorem refresh_of_refreshed {earlier later : App} (hdelegate : later.delegate = earlier.delegate)
    (hpages : later.listPages = earlier.refresh.listPages) :
    later.refresh = refresh { later with listPages := earlier.listPages } := by
  rw [refresh, refresh]
  congr 1
  funext page
  rw [hpages, refresh]
  by_cases hpage : earlier.delegate = some page
  · simp only [hdelegate, hpage, if_true, Option.map_map]
    rfl
  · simp only [hdelegate, hpage, if_false]

theorem cases_of_writeImageDataToFile {app next : App} {name : String} {data : Data}
    {written : Bool} (h : (app.writeImageDataToFile name data written).result = some next) :
    next = refresh { app with documents := app.documents.insert name data } ∨ next = app := by
  unfold writeImageDataToFile at h
  split_ifs at h
  · exact Or.inl (eq_refresh_of_notify h)
  · exact Or.inr (Option.some.inj h).symm

theorem insertPlace_eq (app : App) (place : Ref) :
    app.insertPlace place = { app with
      places :=
        if containsKey app.heap app.places (app.heap.read place).key = false then
          app.places ++ [place]
        else app.places } := by
  unfold insertPlace
  split <;> rfl

/-- What is done with the first image of a new place: it is loaded, or requested. -/
theorem cases_of_loadFirstImage {app next : App} {place : Ref} {name : String}
    (h : (app.loadFirstImage place name).result = some next) :
    app.directories name = false ∧
      ((∃ data, app.documents.lookup name = some data ∧ next = app.setImage place name data) ∨
        app.documents.lookup name = none ∧
          (app.downloadImageFromStorage place).result = some next) := by
  obtain ⟨found, hfound, hnext⟩ := Option.bind_eq_some_iff.mp h
  have hfound : app.imageExistsForName name = some found := hfound
  unfold imageExistsForName at hfound
  split_ifs at hfound with hdirectory
  refine ⟨Bool.not_eq_true _ ▸ hdirectory, ?_⟩
  rw [Option.some.inj hfound]
  cases found with
  | none => exact Or.inr ⟨rfl, hnext⟩
  | some data => exact Or.inl ⟨data, rfl, (Option.some.inj hnext).symm⟩

theorem exists_of_downloadImageFromStorage {app next : App} {place : Ref}
    (h : (app.downloadImageFromStorage place).result = some next) :
    ∃ requests, next = refresh { app with requests := requests } := by
  obtain ⟨name, _, hnotify⟩ := Option.bind_eq_some_iff.mp h
  exact ⟨_, eq_refresh_of_notify hnotify⟩

/-- The steps of the observer of `childAdded`. -/
theorem childAdded_eq_some_iff {app next : App} {key : String} {child : Children Value} :
    (app.childAdded key child).result = some next ↔
      ∃ images newPlace name loaded,
        (child "images").bind Value.asStringArray = some images ∧
        Place.placeFromDictionary child key = some newPlace ∧
        images.head? = some name ∧
        (loadFirstImage { app with heap := app.heap.alloc newPlace } app.heap.next name).result =
          some loaded ∧
        (loaded.insertPlace app.heap.next).notify.result = some next := by
  constructor
  · intro h
    obtain ⟨images, himages, hdecodes⟩ := Option.bind_eq_some_iff.mp h
    obtain ⟨newPlace, hdecoded, hnames⟩ := Option.bind_eq_some_iff.mp hdecodes
    obtain ⟨name, hname, hloads⟩ := Option.bind_eq_some_iff.mp hnames
    obtain ⟨loaded, hloaded, hnotify⟩ := Option.bind_eq_some_iff.mp hloads
    exact ⟨images, newPlace, name, loaded, himages, hdecoded, hname, hloaded, hnotify⟩
  · rintro ⟨images, newPlace, name, loaded, himages, hdecoded, hname, hloaded, hnotify⟩
    simp only [childAdded, result_bind, result_force, himages, hdecoded, hname, hloaded,
      Option.bind_some]
    exact hnotify

/-- What the observer of `childAdded` does. It decodes the snapshot into a fresh object, with or
without data for its first image, appends the object to the store unless an entry has its key, and
notifies the delegate. -/
theorem exists_of_childAdded {app next : App} {key : String} {child : Children Value}
    (h : (app.childAdded key child).result = some next) :
    ∃ decoded newPlace requests,
      Place.placeFromDictionary child key = some decoded ∧
      newPlace.withoutImages = decoded.withoutImages ∧
      next = refresh { app with
        heap := app.heap.alloc newPlace
        places :=
          if containsKey (app.heap.alloc newPlace) app.places newPlace.key = false then
            app.places ++ [app.heap.next]
          else app.places
        requests := requests } := by
  obtain ⟨_, decoded, name, loaded, _, hdecoded, _, hloaded, hnotify⟩ :=
    childAdded_eq_some_iff.mp h
  obtain rfl := eq_refresh_of_notify hnotify
  rcases (cases_of_loadFirstImage hloaded).2 with ⟨data, _, rfl⟩ | ⟨_, hrequested⟩
  · refine ⟨decoded, { decoded with placeImages := decoded.placeImages.insert name data },
      app.requests, hdecoded, rfl, ?_⟩
    simp only [insertPlace_eq, setImage, Heap.read_alloc_next, Heap.write_alloc_next]
  · obtain ⟨requests, hloaded⟩ := exists_of_downloadImageFromStorage hrequested
    refine ⟨decoded, decoded, requests, hdecoded, rfl, ?_⟩
    have hpages : (loaded.insertPlace app.heap.next).listPages = (refresh { app with
        heap := app.heap.alloc decoded, requests := requests }).listPages := by
      rw [insertPlace_eq, hloaded]
    rw [refresh_of_refreshed (by rw [insertPlace_eq, hloaded]; rfl) hpages, insertPlace_eq, hloaded]
    simp only [refresh, Heap.read_alloc_next]

theorem replacePlace_eq_some_iff {app replaced : App} {place : Ref} :
    app.replacePlace place = some replaced ↔
      app.places ≠ [] ∧
        replaced = { app with places := replaceEntry app.heap place app.places } := by
  rw [replacePlace, Ne, ← List.length_eq_zero_iff]
  split_ifs with hempty
  · simp [hempty]
  · simp [hempty, eq_comm]

/-- The steps of the observer of `childChanged`. -/
theorem childChanged_eq_some_iff {app next : App} {key : String} {child : Children Value} :
    (app.childChanged key child).result = some next ↔
      ∃ newPlace requested,
        Place.placeFromDictionary child key = some newPlace ∧
        app.places ≠ [] ∧
        (downloadImageFromStorage { app with
          heap := app.heap.alloc newPlace
          places := replaceEntry (app.heap.alloc newPlace) app.heap.next app.places }
            app.heap.next).result = some requested ∧
        requested.notify.result = some next := by
  constructor
  · intro h
    obtain ⟨newPlace, hdecoded, hreplaces⟩ := Option.bind_eq_some_iff.mp h
    obtain ⟨replaced, hreplaced, hrequests⟩ := Option.bind_eq_some_iff.mp hreplaces
    obtain ⟨requested, hrequested, hnotify⟩ := Option.bind_eq_some_iff.mp hrequests
    obtain ⟨hplaces, rfl⟩ := replacePlace_eq_some_iff.mp hreplaced
    exact ⟨newPlace, requested, hdecoded, hplaces, hrequested, hnotify⟩
  · rintro ⟨newPlace, requested, hdecoded, hplaces, hrequested, hnotify⟩
    have hreplaced : replacePlace { app with heap := app.heap.alloc newPlace } app.heap.next =
        some { app with
          heap := app.heap.alloc newPlace
          places := replaceEntry (app.heap.alloc newPlace) app.heap.next app.places } :=
      replacePlace_eq_some_iff.mpr ⟨hplaces, rfl⟩
    simp only [childChanged, result_bind, result_force, hdecoded, hreplaced, hrequested,
      Option.bind_some]
    exact hnotify

/-- What the observer of `childChanged` does. It decodes the snapshot into a fresh object, which
replaces the first entry with its key, and notifies the delegate; the store is not empty. -/
theorem exists_of_childChanged {app next : App} {key : String} {child : Children Value}
    (h : (app.childChanged key child).result = some next) :
    ∃ newPlace requests,
      Place.placeFromDictionary child key = some newPlace ∧
      app.places ≠ [] ∧
      next = refresh { app with
        heap := app.heap.alloc newPlace
        places := replaceEntry (app.heap.alloc newPlace) app.heap.next app.places
        requests := requests } := by
  obtain ⟨newPlace, requested, hdecoded, hplaces, hrequested, hnotify⟩ :=
    childChanged_eq_some_iff.mp h
  obtain rfl := eq_refresh_of_notify hnotify
  obtain ⟨requests, hrequests⟩ := exists_of_downloadImageFromStorage hrequested
  refine ⟨newPlace, requests, hdecoded, hplaces, ?_⟩
  rw [refresh_of_refreshed (by rw [hrequests]; rfl) (congrArg listPages hrequests), hrequests]
  rfl

/-! ### The keys of the entries -/

theorem containsKey_eq_false_iff {heap : Heap Place} {refs : List Ref} {key : String} :
    containsKey heap refs key = false ↔ ∀ ref ∈ refs, (heap.read ref).key ≠ key := by
  simp [containsKey]

theorem map_key_replaceEntry (heap : Heap Place) (place : Ref) (refs : List Ref) :
    (replaceEntry heap place refs).map (fun ref ↦ (heap.read ref).key) =
      refs.map fun ref ↦ (heap.read ref).key := by
  induction refs with
  | nil => rfl
  | cons ref rest ih =>
    rw [replaceEntry]
    split_ifs with hkey
    · rw [List.map_cons, List.map_cons, hkey]
    · rw [List.map_cons, List.map_cons, ih]

/-- Assumes: entries with different keys. After a replacement an entry is the new place or an entry
with another key. -/
theorem mem_replaceEntry {heap : Heap Place} {place ref : Ref} {refs : List Ref}
    (hkeys : (refs.map fun ref ↦ (heap.read ref).key).Nodup)
    (h : ref ∈ replaceEntry heap place refs) :
    ref = place ∨ ref ∈ refs ∧ (heap.read ref).key ≠ (heap.read place).key := by
  induction refs with
  | nil => cases h
  | cons other rest ih =>
    rw [List.map_cons, List.nodup_cons] at hkeys
    rw [replaceEntry] at h
    split_ifs at h with hother
    · refine (List.mem_cons.mp h).imp_right fun hrest ↦ ⟨List.mem_cons_of_mem _ hrest, ?_⟩
      intro hkey
      exact hkeys.1 (List.mem_map.mpr ⟨ref, hrest, hkey.trans hother.symm⟩)
    · rcases List.mem_cons.mp h with rfl | hrest
      · exact Or.inr ⟨List.mem_cons_self, hother⟩
      · exact (ih hkeys.2 hrest).imp_right fun hold ↦ ⟨List.mem_cons_of_mem _ hold.1, hold.2⟩

/-- The first entry of the store with a key. -/
def entry (app : App) (key : String) : Option Ref :=
  app.places.find? fun ref ↦ (app.heap.read ref).key = key

theorem key_of_entry {app : App} {key : String} {place : Ref}
    (h : app.entry key = some place) : (app.heap.read place).key = key := by
  simpa using List.find?_some h

/-- The entries of the store are objects of the heap with different keys. -/
structure WellFormed (app : App) : Prop where
  live : ∀ ref ∈ app.places, ref < app.heap.next
  keys : (app.places.map fun ref ↦ (app.heap.read ref).key).Nodup

/-- The store is well formed as long as the entries keep their keys. -/
theorem WellFormed.of_key {before after : App} (h : before.WellFormed)
    (hplaces : after.places = before.places) (hnext : after.heap.next = before.heap.next)
    (hkey : ∀ ref, (after.heap.read ref).key = (before.heap.read ref).key) :
    after.WellFormed := by
  refine ⟨fun ref href ↦ hnext ▸ h.live ref (hplaces ▸ href), ?_⟩
  simp only [hplaces, hkey]
  exact h.keys

theorem WellFormed.map_key_alloc {app : App} (h : app.WellFormed) (newPlace : Place) :
    app.places.map (fun ref ↦ ((app.heap.alloc newPlace).read ref).key) =
      app.places.map fun ref ↦ (app.heap.read ref).key :=
  List.map_congr_left fun ref href ↦ by rw [Heap.read_alloc_of_lt _ _ (h.live ref href)]

theorem WellFormed.refresh {app : App} (h : app.WellFormed) : app.refresh.WellFormed :=
  ⟨h.live, h.keys⟩

theorem WellFormed.alloc {app : App} (h : app.WellFormed) (newPlace : Place) :
    WellFormed { app with heap := app.heap.alloc newPlace } :=
  ⟨fun ref href ↦ Nat.lt_succ_of_lt (h.live ref href), by rw [h.map_key_alloc]; exact h.keys⟩

theorem WellFormed.setImage {app : App} (h : app.WellFormed) (place : Ref) (name : String)
    (data : Data) : (app.setImage place name data).WellFormed :=
  h.of_key rfl rfl (app.heap.view_read_write _ Place.key rfl)

/-- Assumes: an object of the heap. -/
theorem WellFormed.insertPlace {app : App} (h : app.WellFormed) {place : Ref}
    (hplace : place < app.heap.next) : (app.insertPlace place).WellFormed := by
  unfold App.insertPlace
  split_ifs with hcontains
  · refine ⟨fun ref href ↦ ?_, ?_⟩
    · rcases List.mem_append.mp href with hold | hnew
      · exact h.live ref hold
      · exact List.mem_singleton.mp hnew ▸ hplace
    · rw [List.map_append, List.map_singleton]
      refine List.nodup_append.mpr ⟨h.keys, List.nodup_singleton _, fun key hkey other hother ↦ ?_⟩
      obtain ⟨ref, href, rfl⟩ := List.mem_map.mp hkey
      rw [List.mem_singleton.mp hother]
      exact containsKey_eq_false_iff.mp hcontains ref href
  · exact h

/-- Assumes: an object of the heap. -/
theorem WellFormed.replacePlace {app replaced : App} (h : app.WellFormed) {place : Ref}
    (hplace : place < app.heap.next) (hreplaced : app.replacePlace place = some replaced) :
    replaced.WellFormed := by
  obtain ⟨_, rfl⟩ := replacePlace_eq_some_iff.mp hreplaced
  refine ⟨fun ref href ↦ ?_, by rw [map_key_replaceEntry]; exact h.keys⟩
  rcases mem_replaceEntry h.keys href with rfl | ⟨hold, _⟩
  · exact hplace
  · exact h.live ref hold

theorem WellFormed.downloadImageFromStorage {app next : App} (h : app.WellFormed) {place : Ref}
    (hnext : (app.downloadImageFromStorage place).result = some next) : next.WellFormed := by
  obtain ⟨requests, rfl⟩ := exists_of_downloadImageFromStorage hnext
  exact ⟨h.live, h.keys⟩

/-- The first image is loaded or requested, and no object is allocated. -/
theorem WellFormed.loadFirstImage {app next : App} (h : app.WellFormed) {place : Ref}
    {name : String} (hnext : (app.loadFirstImage place name).result = some next) :
    next.WellFormed ∧ next.heap.next = app.heap.next := by
  rcases (cases_of_loadFirstImage hnext).2 with ⟨data, _, rfl⟩ | ⟨_, hrequested⟩
  · exact ⟨h.setImage place name data, rfl⟩
  · obtain ⟨requests, rfl⟩ := exists_of_downloadImageFromStorage hrequested
    exact ⟨⟨h.live, h.keys⟩, rfl⟩

theorem WellFormed.childAdded {app next : App} (h : app.WellFormed) {key : String}
    {child : Children Value} (hnext : (app.childAdded key child).result = some next) :
    next.WellFormed := by
  obtain ⟨_, newPlace, name, loaded, _, _, _, hloaded, hnotify⟩ :=
    childAdded_eq_some_iff.mp hnext
  obtain ⟨hwell, hlive⟩ := (h.alloc newPlace).loadFirstImage hloaded
  rw [eq_refresh_of_notify hnotify]
  exact (hwell.insertPlace (hlive ▸ Nat.lt_succ_self _)).refresh

theorem WellFormed.childChanged {app next : App} (h : app.WellFormed) {key : String}
    {child : Children Value} (hnext : (app.childChanged key child).result = some next) :
    next.WellFormed := by
  obtain ⟨newPlace, requested, _, hplaces, hrequested, hnotify⟩ :=
    childChanged_eq_some_iff.mp hnext
  have hwell := (h.alloc newPlace).replacePlace (Nat.lt_succ_self _)
    (replacePlace_eq_some_iff.mpr ⟨hplaces, rfl⟩)
  rw [eq_refresh_of_notify hnotify]
  exact (hwell.downloadImageFromStorage hrequested).refresh

end App

end BeenHere
