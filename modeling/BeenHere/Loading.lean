import BeenHere.ImageCache
import BeenHere.NamedImages

/-!
# The images of an open page

What opening a detail page starts, the answers of the storage finish. `prepare` copies the files
that are there and requests all images of the place if one is missing. An answer stores its data in
the entry of the store, and `ReloadData` brings it into the strip of the page. A page may be opened,
left and opened again meanwhile, the writes of files may fail, and images of other places arrive in
between; and the answer to `getDataForImageName` stores its data without `ReloadData`.

As long as its place does not change and no request for it fails, every image of an open page is in
its strip or under way (`Loading`), and an image that is no longer under way is in the strip with
the data that the storage has for its name (`strip_eq_storage_of_run`).
-/

set_option autoImplicit false
set_option relaxedAutoImplicit false

namespace BeenHere

open Firebase ObjectHeap Traced

namespace App

variable {app next : App} {key : String}

/-! ### Requests -/

/-- A request of `getPlacesDataForPlace` for an image of a place. -/
def UnderWay (app : App) (key name : String) : Prop :=
  ∃ request ∈ app.requests, request.source = .allImages ∧
    (app.heap.read request.place).key = key ∧ request.name = name

instance (app : App) (key name : String) : Decidable (app.UnderWay key name) :=
  inferInstanceAs (Decidable (∃ request ∈ app.requests, _))

/-- The place does not change, and no request for its images is answered with an error. -/
def Undisturbed (key : String) (app : App) : RuntimeAction → Prop
  | .page (.observe event) => event.kind = .childChanged → event.key ≠ key
  | .page (.finishPlacesData index none _) =>
    ∀ request ∈ app.requests[index]?, (app.heap.read request.place).key ≠ key
  | _ => True

instance (key : String) (app : App) : DecidablePred (app.Undisturbed key)
  | .page (.observe event) =>
    inferInstanceAs (Decidable (event.kind = .childChanged → event.key ≠ key))
  | .page (.finishPlacesData index none _) => inferInstanceAs (Decidable
      (∀ request ∈ app.requests[index]?, (app.heap.read request.place).key ≠ key))
  | .page (.finishPlacesData _ (some _) _) | .signIn _ | .signOut | .finishFirstImage _ _ _
  | .page .openList | .page .openMyPlaces | .page (.closeList _) | .page (.openDetail _ _)
  | .page (.closeDetail _) => inferInstanceAs (Decidable True)

theorem requests_downloadImageFromStorage {place : Ref}
    (hnext : (app.downloadImageFromStorage place).result = some next) :
    ∃ name, next.requests = app.requests ++ [⟨place, name, .firstImage⟩] := by
  obtain ⟨name, _, hnotify⟩ := Option.bind_eq_some_iff.mp hnext
  rw [eq_refresh_of_notify hnotify]
  exact ⟨name, rfl⟩

/-- An event leaves the requests under way and the detail pages. What it requests, if anything, is
the first image of the object that it allocates. -/
theorem requests_handle {event : Event} (hnext : app.handle event = some next) :
    next.detailPages = app.detailPages ∧ ∃ added, next.requests = app.requests ++ added ∧
      ∀ request ∈ added, request.place = app.heap.next := by
  have hdownload (before after : App) (hrequests : before.requests = app.requests)
      (hdownloaded : (before.downloadImageFromStorage app.heap.next).result = some after) :
      ∃ added, after.requests = app.requests ++ added ∧
        ∀ request ∈ added, request.place = app.heap.next := by
    obtain ⟨name, hadded⟩ := requests_downloadImageFromStorage hdownloaded
    exact ⟨_, hrequests ▸ hadded, fun request hrequest ↦ by rw [List.mem_singleton.mp hrequest]⟩
  unfold handle observe at hnext
  split at hnext
  · obtain ⟨_, _, _, _, _, hpages⟩ := exists_of_childAdded hnext
    refine ⟨by rw [hpages]; rfl, ?_⟩
    obtain ⟨_, newPlace, name, loaded, _, _, _, hloaded, hnotify⟩ :=
      childAdded_eq_some_iff.mp hnext
    rw [eq_refresh_of_notify hnotify, insertPlace_eq]
    rcases (cases_of_loadFirstImage hloaded).2 with ⟨data, _, rfl⟩ | ⟨_, hrequested⟩
    · exact ⟨[], (List.append_nil _).symm, fun request hrequest ↦ by cases hrequest⟩
    · exact hdownload { app with heap := app.heap.alloc newPlace } loaded rfl hrequested
  · obtain ⟨_, _, _, _, hpages⟩ := exists_of_childChanged hnext
    refine ⟨by rw [hpages]; rfl, ?_⟩
    obtain ⟨newPlace, requested, _, _, hrequested, hnotify⟩ := childChanged_eq_some_iff.mp hnext
    rw [eq_refresh_of_notify hnotify]
    exact hdownload { app with
      heap := app.heap.alloc newPlace
      places := replaceEntry (app.heap.alloc newPlace) app.heap.next app.places } requested rfl
      hrequested

/-- The answer to `getDataForImageName` leaves the other requests and the detail pages. -/
theorem requests_finishFirstImage {request : ImageRequest} {answer : Option Data} {written : Bool}
    (hnext : (app.finishFirstImage request answer written).result = some next) :
    next.detailPages = app.detailPages ∧ next.requests = app.requests := by
  unfold finishFirstImage at hnext
  split at hnext
  · exact Option.some.inj hnext ▸ ⟨rfl, rfl⟩
  · split_ifs at hnext
    · rcases cases_of_writeImageDataToFile hnext with rfl | rfl <;> exact ⟨rfl, rfl⟩
    · exact Option.some.inj hnext ▸ ⟨rfl, rfl⟩

/-- A request other than the one that is answered stays under way. -/
theorem mem_eraseIdx_of_ne {requests : List ImageRequest} {index : ℕ}
    {request answered : ImageRequest} (hrequest : request ∈ requests)
    (hanswered : requests[index]? = some answered) (hne : request ≠ answered) :
    request ∈ requests.eraseIdx index := by
  obtain ⟨other, hother⟩ := List.mem_iff_getElem?.mp hrequest
  refine List.mem_eraseIdx_iff_getElem?.mpr ⟨other, fun hsame ↦ hne ?_, hother⟩
  rw [hsame, hanswered, Option.some.injEq] at hother
  exact hother.symm

/-! ### What is loading -/

/-- The page of an entry whose images are in its strip or under way. -/
structure PageLoading (key : String) (app : App) (detail : DetailPage) : Prop where
  entry : detail.detailPlace ∈ app.places
  strip : ∀ name, detail.strip.lookup name ≠ none →
    (app.heap.read detail.detailPlace).placeImages.lookup name ≠ none
  owed : ∀ name ∈ (app.heap.read detail.detailPlace).imageNames,
    detail.strip.lookup name ≠ none ∨ app.UnderWay key name

/-- The pages of a place show its entry, and those that show its images have each in the strip or
under way. -/
structure Loading (key : String) (app : App) : Prop where
  displayed : app.Displayed
  requests : ∀ request ∈ app.requests, request.place < app.heap.next
  rows : ∀ page list, app.listPages page = some list → ∀ ref ∈ list.places,
    (app.heap.read ref).key = key → ref ∈ app.places
  live : ∀ page detail, app.detailPages page = some detail → detail.detailPlace < app.heap.next
  pages : ∀ page detail, app.detailPages page = some detail →
    (app.heap.read detail.detailPlace).key = key → app.PageLoading key detail

/-- What a step that does not disturb the loading of a place keeps of the objects and the store. -/
structure Carries (key : String) (before after : App) : Prop where
  next : before.heap.next ≤ after.heap.next
  read : ∀ ref < before.heap.next,
    (after.heap.read ref).withoutImages = (before.heap.read ref).withoutImages
  images : ∀ ref < before.heap.next, ∀ name,
    (before.heap.read ref).placeImages.lookup name ≠ none →
      (after.heap.read ref).placeImages.lookup name ≠ none
  entry : ∀ ref ∈ before.places, (before.heap.read ref).key = key → ref ∈ after.places
  pages : PagesShow before after

theorem Browsed.carries {before after : App} (h : Browsed before after) (key : String) :
    Carries key before after where
  next := h.next.ge
  read ref _ := h.read ref
  images ref _ := h.images ref
  entry _ href _ := h.places ▸ href
  pages := h.pages

theorem Carries.key_eq {before after : App} (h : Carries key before after) {ref : Ref}
    (href : ref < before.heap.next) :
    (after.heap.read ref).key = (before.heap.read ref).key :=
  Place.key_eq_of_withoutImages (h.read ref href)

/-- An event carries the place on that it does not change. -/
theorem carries_of_handle (h : app.WellFormed) {event : Event}
    (hundisturbed : event.kind = .childChanged → event.key ≠ key)
    (hnext : app.handle event = some next) : Carries key app next := by
  obtain ⟨decoded, newPlace, hobserved⟩ := observed_of_handle h hnext
  have hread (ref : Ref) (href : ref < app.heap.next) :
      next.heap.read ref = app.heap.read ref := by
    rw [hobserved.heap, Heap.read_alloc_of_lt _ _ href]
  refine ⟨?_, fun ref href ↦ by rw [hread ref href], fun ref href name hloaded ↦ ?_,
    fun ref href hkey ↦ ?_, hobserved.pagesShow⟩
  · rw [hobserved.heap]
    exact Nat.le_succ _
  · rwa [hread ref href]
  · have hentry := (entry_eq_some_iff h).mpr ⟨href, hkey⟩
    have hkept := hobserved.kept key ref hentry fun hreplaced ↦
      hundisturbed hreplaced.1 hreplaced.2.symm
    exact List.mem_of_find?_eq_some hkept

theorem carries_of_runtimeStep (h : app.WellFormed) {action : RuntimeAction}
    (hundisturbed : app.Undisturbed key action) (hnext : app.runtimeStep action = some next) :
    Carries key app next := by
  by_cases hevent : ∃ event, action = .page (.observe event)
  · obtain ⟨event, rfl⟩ := hevent
    exact carries_of_handle h hundisturbed hnext
  · exact (browsed_of_runtimeStep h (fun event haction ↦ hevent ⟨event, haction⟩) hnext).carries key

/-- What is under way stays under way. Assumes: no request of `getPlacesDataForPlace` is
answered. -/
theorem UnderWay.carry {name : String} (h : app.UnderWay key name)
    (hlive : ∀ request ∈ app.requests, request.place < app.heap.next)
    (hcarries : Carries key app next)
    (hrequests : ∀ request ∈ app.requests, request.source = .allImages → request ∈ next.requests) :
    next.UnderWay key name := by
  obtain ⟨request, hrequest, hsource, hkey, hname⟩ := h
  exact ⟨request, hrequests request hrequest hsource, hsource,
    (hcarries.key_eq (hlive request hrequest)).trans hkey, hname⟩

/-- A page whose strip stays as it is. -/
theorem PageLoading.carry {detail : DetailPage} (h : app.PageLoading key detail)
    (hstore : app.WellFormed) (hkey : (app.heap.read detail.detailPlace).key = key)
    (hcarries : Carries key app next)
    (hunderWay : ∀ name, app.UnderWay key name → next.UnderWay key name) :
    next.PageLoading key detail := by
  have hlive := hstore.live detail.detailPlace h.entry
  refine ⟨hcarries.entry _ h.entry hkey, fun name hloaded ↦
    hcarries.images _ hlive name (h.strip name hloaded), fun name hname ↦ ?_⟩
  rw [Place.imageNames_eq_of_withoutImages (hcarries.read _ hlive)] at hname
  exact (h.owed name hname).imp_right (hunderWay name)

/-- One step. Assumes: requests of objects of the heap after it, and detail pages that were there
before or are loading. -/
theorem Loading.of_carries (h : app.Loading key) (hcarries : Carries key app next)
    (hdisplayed : next.Displayed)
    (hrequests : ∀ request ∈ next.requests, request.place < next.heap.next)
    (hpages : ∀ page detail, next.detailPages page = some detail →
      detail.detailPlace < next.heap.next ∧
        ((next.heap.read detail.detailPlace).key = key → next.PageLoading key detail)) :
    next.Loading key := by
  refine ⟨hdisplayed, hrequests, fun page list hlist ref href hkey ↦ ?_,
    fun page detail hdetail ↦ (hpages page detail hdetail).1,
    fun page detail hdetail ↦ (hpages page detail hdetail).2⟩
  rcases hcarries.pages page list hlist ref href with hmem | ⟨old, hold, hmem⟩
  · exact hmem
  · have hlive := (h.displayed.rows page old hold ref hmem).1
    rw [hcarries.key_eq hlive] at hkey
    exact hcarries.entry ref (h.rows page old hold ref hmem hkey) hkey

/-- A detail page that a step leaves. Assumes: what is under way stays under way. -/
theorem Loading.page_of_carries (h : app.Loading key) (hcarries : Carries key app next)
    (hunderWay : ∀ name, app.UnderWay key name → next.UnderWay key name) {page : PageId}
    {detail : DetailPage} (hdetail : app.detailPages page = some detail) :
    detail.detailPlace < next.heap.next ∧
      ((next.heap.read detail.detailPlace).key = key → next.PageLoading key detail) := by
  have hlive := h.live page detail hdetail
  refine ⟨hlive.trans_le hcarries.next, fun hkey ↦ ?_⟩
  rw [hcarries.key_eq hlive] at hkey
  exact (h.pages page detail hdetail hkey).carry h.displayed.store hkey hcarries hunderWay

/-- Assumes: requests that stay as they are, and no new detail page. -/
theorem Loading.of_frame (h : app.Loading key) (hcarries : Carries key app next)
    (hdisplayed : next.Displayed) (hrequests : next.requests = app.requests)
    (hpages : ∀ page detail, next.detailPages page = some detail →
      app.detailPages page = some detail) : next.Loading key := by
  refine h.of_carries hcarries hdisplayed (fun request hrequest ↦ ?_) fun page detail hdetail ↦
    h.page_of_carries hcarries (fun name hunderWay ↦ ?_) (hpages page detail hdetail)
  · rw [hrequests] at hrequest
    exact (h.requests request hrequest).trans_le hcarries.next
  · exact hunderWay.carry h.requests hcarries fun request hrequest _ ↦ hrequests ▸ hrequest

/-! ### Actions -/

/-- A page that is opened has each image of its place, or requests it. -/
theorem Loading.openDetail (h : app.Loading key) {page : PageId} {row : ℕ}
    (hcarries : Carries key app next) (hdisplayed : next.Displayed)
    (hnext : app.openDetail page row = some next) : next.Loading key := by
  obtain ⟨list, place, prepared, hlist, hrow, hprepare, rfl⟩ := exists_prepared_of_openDetail hnext
  have hmem := List.mem_of_getElem? hrow
  have hlive := (h.displayed.rows page list hlist place hmem).1
  have hprepared := prepared_prepare hprepare
  have hdetails : prepared.detailPages = app.detailPages := by
    obtain ⟨heap, requests, rfl, _⟩ := exists_of_prepare hprepare
    rfl
  have hold : ∀ request ∈ app.requests, request ∈ prepared.requests := by
    intro request hrequest
    rw [hprepared.requests]
    exact List.mem_append_left _ hrequest
  refine h.of_carries hcarries hdisplayed (fun request hrequest ↦ ?_) fun other detail hdetail ↦ ?_
  · refine lt_of_lt_of_le ?_ hcarries.next
    change request ∈ prepared.requests at hrequest
    rw [hprepared.requests] at hrequest
    rcases List.mem_append.mp hrequest with hbefore | hadded
    · exact h.requests request hbefore
    · obtain ⟨name, _, hname⟩ := List.mem_flatMap.mp hadded
      split_ifs at hname
      · obtain ⟨image, _, rfl⟩ := List.mem_map.mp hname
        exact hlive
      · cases hname
  · by_cases hother : other = prepared.nextPage
    · simp only [hother, Function.update_self, Option.some.injEq] at hdetail
      subst hdetail
      refine ⟨hlive.trans_le hcarries.next, fun hkey ↦ ⟨?_, fun name hloaded ↦ hloaded,
        fun name hname ↦ ?_⟩⟩
      · have hbefore := (hcarries.key_eq hlive).symm.trans hkey
        exact hcarries.entry place (h.rows page list hlist place hmem hbefore) hbefore
      · -- an image that is neither loaded nor a file has been requested
        have hnamed : name ∈ (app.heap.read place).imageNames := by
          rwa [← hprepared.imageNames]
        have himage := hprepared.images name
        rw [if_pos hnamed] at himage
        refine or_iff_not_imp_left.mpr fun hmissing ↦
          ⟨⟨place, name, .allImages⟩, ?_, rfl, hkey, rfl⟩
        obtain ⟨_, hfile⟩ := Option.or_eq_none_iff.mp (himage.symm.trans (not_not.mp hmissing))
        change (⟨place, name, .allImages⟩ : ImageRequest) ∈ prepared.requests
        rw [hprepared.requests]
        refine List.mem_append_right _ (List.mem_flatMap.mpr ⟨name, hnamed, ?_⟩)
        rw [if_pos hfile]
        exact List.mem_map.mpr ⟨name, hnamed, rfl⟩
    · simp only [Function.update_of_ne hother, hdetails] at hdetail
      exact h.page_of_carries hcarries (fun name hunderWay ↦ hunderWay.carry h.requests hcarries
        fun request hrequest _ ↦ hold request hrequest) hdetail

/-- An answer with data reloads every strip. -/
theorem pages_finishPlacesData {request : ImageRequest} {data : Data} {written : Bool}
    (hnext : (app.finishPlacesData request (some data) written).result = some next) :
    next.requests = app.requests ∧ ∀ page detail, next.detailPages page = some detail →
      ∃ old, app.detailPages page = some old ∧ detail.detailPlace = old.detailPlace ∧
        detail.strip = (next.heap.read detail.detailPlace).placeImages := by
  have hreloaded : ∃ notified, next = reloadData notified := by
    obtain ⟨stored, _, hlast⟩ := Option.bind_eq_some_iff.mp hnext
    obtain ⟨notified, _, hreload⟩ := Option.bind_eq_some_iff.mp hlast
    exact ⟨notified, (Option.some.inj hreload).symm⟩
  rcases exists_of_finishPlacesData hnext with rfl | ⟨place, heap, documents, _, _, rfl⟩
  · obtain ⟨notified, hnotified⟩ := hreloaded
    refine ⟨rfl, fun page detail hdetail ↦ ⟨detail, hdetail, rfl, ?_⟩⟩
    rw [hnotified] at hdetail ⊢
    obtain ⟨old, _, rfl⟩ := Option.map_eq_some_iff.mp hdetail
    rfl
  · refine ⟨rfl, fun page detail hdetail ↦ ?_⟩
    obtain ⟨old, hold, rfl⟩ := Option.map_eq_some_iff.mp hdetail
    exact ⟨old, hold, rfl, rfl⟩

/-- The image that an answer brings is in the entry of its place. -/
theorem loaded_of_finishPlacesData {request : ImageRequest} {data : Data} {written : Bool}
    (hnext : (app.finishPlacesData request (some data) written).result = some next) {item : Ref}
    (hitem : app.entry (app.heap.read request.place).key = some item) :
    (next.heap.read item).placeImages.lookup request.name ≠ none := by
  rw [heap_finishPlacesData hnext, hitem, Option.elim_some]
  split_ifs with hmissing
  · rw [setImage, Heap.read_write_self, Finmap.lookup_insert]
    exact Option.some_ne_none data
  · exact hmissing

/-- An answer to `getPlacesDataForPlace`. The image that it brings is no longer under way but in the
strips of the place. -/
theorem Loading.finishPlacesData (h : app.Loading key) {index : ℕ} {answer : Option Data}
    {written : Bool} {request : ImageRequest} (hrequest : app.requests[index]? = some request)
    (hanswer : answer = none → (app.heap.read request.place).key ≠ key)
    (hcarries : Carries key app next) (hdisplayed : next.Displayed)
    (hnext : (App.finishPlacesData { app with requests := app.requests.eraseIdx index } request
      answer written).result = some next) : next.Loading key := by
  have hlive (other : ImageRequest) (hother : other ∈ app.requests.eraseIdx index) :
      other.place < next.heap.next :=
    (h.requests other (List.mem_of_mem_eraseIdx hother)).trans_le hcarries.next
  cases answer with
  | none =>
    obtain rfl := Option.some.inj hnext
    refine h.of_carries hcarries hdisplayed hlive fun page detail hdetail ↦
      h.page_of_carries hcarries (fun name ↦ ?_) hdetail
    rintro ⟨other, hother, hsource, hkey, hname⟩
    refine ⟨other, mem_eraseIdx_of_ne hother hrequest fun hsame ↦ ?_, hsource, hkey, hname⟩
    exact hanswer rfl (hsame ▸ hkey)
  | some data =>
    obtain ⟨hkept, hpages⟩ := pages_finishPlacesData hnext
    have hrequests : next.requests = app.requests.eraseIdx index := hkept
    refine h.of_carries hcarries hdisplayed (fun other hother ↦ hlive other (hrequests ▸ hother))
      fun page detail hdetail ↦ ?_
    obtain ⟨old, hold, hplace, hstrip⟩ := hpages page detail hdetail
    have hplaceLive := h.live page old hold
    rw [← hplace] at hplaceLive
    refine ⟨hplaceLive.trans_le hcarries.next, fun hkey ↦ ?_⟩
    have hbefore := (hcarries.key_eq hplaceLive).symm.trans hkey
    have hpage := h.pages page old hold (hplace ▸ hbefore)
    have hentry : detail.detailPlace ∈ app.places := hplace ▸ hpage.entry
    refine ⟨hcarries.entry _ hentry hbefore, fun name hloaded ↦ hstrip ▸ hloaded,
      fun name hname ↦ ?_⟩
    rw [Place.imageNames_eq_of_withoutImages (hcarries.read _ hplaceLive), hplace] at hname
    rcases hpage.owed name hname with hloaded | ⟨other, hother, hsource, hotherKey, hotherName⟩
    · left
      rw [hstrip]
      exact hcarries.images _ hplaceLive name (hplace ▸ hpage.strip name hloaded)
    · by_cases hsame : other = request
      · left
        rw [hstrip, ← hotherName, hsame]
        refine loaded_of_finishPlacesData hnext ((entry_eq_some_iff ?_).mpr ⟨hentry, ?_⟩)
        · exact ⟨h.displayed.store.live, h.displayed.store.keys⟩
        · exact hbefore.trans (hsame ▸ hotherKey.symm)
      · right
        refine ⟨other, ?_, hsource, ?_, hotherName⟩
        · rw [hrequests]
          exact mem_eraseIdx_of_ne hother hrequest hsame
        · exact (hcarries.key_eq (h.requests other hother)).trans hotherKey

/-! ### Runs -/

theorem Loading.runtimeStep (h : app.Loading key) {action : RuntimeAction}
    (hundisturbed : app.Undisturbed key action) (hnext : app.runtimeStep action = some next) :
    next.Loading key := by
  have hcarries := carries_of_runtimeStep h.displayed.store hundisturbed hnext
  have hdisplayed := h.displayed.runtimeStep hnext
  have hopenList {showOnlyVisited : Bool}
      (hopened : (app.openList showOnlyVisited).result = some next) : next.Loading key := by
    obtain ⟨places, _, rfl⟩ := exists_of_openList hopened
    exact h.of_frame hcarries hdisplayed rfl fun _ _ hdetail ↦ hdetail
  cases action with
  | signIn uid =>
    obtain rfl := Option.some.inj hnext
    exact h.of_frame hcarries hdisplayed rfl fun _ _ hdetail ↦ hdetail
  | signOut =>
    obtain rfl := Option.some.inj hnext
    exact h.of_frame hcarries hdisplayed rfl fun _ _ hdetail ↦ hdetail
  | finishFirstImage index answer written =>
    obtain ⟨request, hrequest, hanswered⟩ := Option.bind_eq_some_iff.mp hnext
    obtain ⟨hrequest, hfirst⟩ := requestAt_eq_some_iff.mp hrequest
    obtain ⟨hpages, hrequests⟩ := requests_finishFirstImage hanswered
    refine h.of_carries hcarries hdisplayed (fun other hother ↦ ?_) fun page detail hdetail ↦
      h.page_of_carries hcarries (fun name hunderWay ↦ hunderWay.carry h.requests hcarries
        fun other hother hall ↦ ?_) (hpages ▸ hdetail)
    · rw [hrequests] at hother
      exact (h.requests other (List.mem_of_mem_eraseIdx hother)).trans_le hcarries.next
    · rw [hrequests]
      refine mem_eraseIdx_of_ne hother hrequest fun hsame ↦ ?_
      rw [hsame, hfirst] at hall
      cases hall
  | page action =>
    cases action with
    | openList =>
      have hopened : (app.openList false).result = some next := hnext
      exact hopenList hopened
    | openMyPlaces =>
      rcases cases_of_openMyPlaces hnext with hopened | rfl
      · exact hopenList hopened
      · exact h
    | closeList page =>
      obtain rfl := Option.some.inj hnext
      exact h.of_frame hcarries hdisplayed rfl fun _ _ hdetail ↦ hdetail
    | openDetail page row => exact h.openDetail hcarries hdisplayed hnext
    | closeDetail page =>
      obtain rfl := Option.some.inj hnext
      refine h.of_frame hcarries hdisplayed rfl fun other detail hdetail ↦ ?_
      by_cases hother : other = page
      · simp [closeDetail, hother] at hdetail
      · simpa only [closeDetail, Function.update_of_ne hother] using hdetail
    | observe event =>
      obtain ⟨hpages, added, hrequests, hadded⟩ := requests_handle hnext
      have hfresh : app.heap.next < next.heap.next := by
        obtain ⟨_, _, hobserved⟩ := observed_of_handle h.displayed.store hnext
        rw [hobserved.heap]
        exact Nat.lt_succ_self _
      refine h.of_carries hcarries hdisplayed (fun request hrequest ↦ ?_) fun page detail hdetail ↦
        h.page_of_carries hcarries (fun name hunderWay ↦ hunderWay.carry h.requests hcarries
          fun request hrequest _ ↦ hrequests ▸ List.mem_append_left _ hrequest) (hpages ▸ hdetail)
      rw [hrequests] at hrequest
      rcases List.mem_append.mp hrequest with hbefore | hnew
      · exact (h.requests request hbefore).trans_le hcarries.next
      · rw [hadded request hnew]
        exact hfresh
    | finishPlacesData index answer written =>
      obtain ⟨request, hrequest, hanswered⟩ := Option.bind_eq_some_iff.mp hnext
      have hrequest := (requestAt_eq_some_iff.mp hrequest).1
      refine h.finishPlacesData hrequest (fun hnone ↦ ?_) hcarries hdisplayed hanswered
      subst hnone
      exact hundisturbed request hrequest

theorem loading_launched (currentUser : Option String) (documents : Dictionary String Data)
    (directories : String → Bool) (key : String) :
    (launched currentUser documents directories).Loading key where
  displayed := displayed_launched currentUser documents directories
  requests _ hrequest := (List.not_mem_nil hrequest).elim
  rows _ _ hlist := by cases hlist
  live _ _ hdetail := by cases hdetail
  pages _ _ hdetail := by cases hdetail

/-- Assumes: files of an earlier run that are the storage's, answers to the requests that are the
storage's or errors, and a place that does not change and for which no request of
`getPlacesDataForPlace` fails. After any run from launch an open page of the place shows, for every
image name of which no request is under way, the data that the storage has for it. -/
theorem strip_eq_storage_of_run {storage : String → Data} {currentUser : Option String}
    {documents : Dictionary String Data} {directories : String → Bool}
    (hdocuments : Agrees storage documents) {actions : List RuntimeAction} {final : App}
    (hanswers : PartialRun.Guarded App.runtimeStep (Answers storage)
      (launched currentUser documents directories) actions)
    (hundisturbed : PartialRun.Guarded App.runtimeStep (Undisturbed key)
      (launched currentUser documents directories) actions)
    (hrun : PartialRun.run App.runtimeStep (launched currentUser documents directories) actions =
      some final) {page : PageId} {detail : DetailPage}
    (hdetail : final.detailPages page = some detail)
    (hkey : (final.heap.read detail.detailPlace).key = key) {name : String}
    (hname : name ∈ (final.heap.read detail.detailPlace).imageNames)
    (hrest : ¬ final.UnderWay key name) :
    detail.strip.lookup name = some (storage name) := by
  have hagrees := (PartialRun.run_invariant
    (fun _ _ _ hstate hguard hstep ↦ Cached.runtimeStep hstate hguard hstep)
      (cached_launched currentUser directories hdocuments) hanswers hrun).strips page detail hdetail
  have hpage := (PartialRun.run_invariant
    (fun _ _ _ hstate hguard hstep ↦ Loading.runtimeStep hstate hguard hstep)
      (loading_launched currentUser documents directories key) hundisturbed hrun).pages page detail
        hdetail hkey
  have hloaded := (hpage.owed name hname).resolve_right hrest
  obtain ⟨data, hdata⟩ := Option.ne_none_iff_exists'.mp hloaded
  rw [hdata, hagrees name data hdata]

def sampleStorage (name : String) : Data := if name = "vitosha.jpg" then [2] else [1]

/-- A place with two images is added and opened, and each image is requested twice. The answers come
in another order, and some of the files are not written. -/
def openedActions : List RuntimeAction :=
  [.page .openList, .page (.observe (sampleEvent .childAdded
      { samplePlace with imageNames := ["boyana.jpg", "vitosha.jpg"] })),
    .page (.openDetail 0 0), .finishFirstImage 0 (some [1]) false,
    .page (.finishPlacesData 3 (some [2]) true), .page (.finishPlacesData 0 (some [1]) false),
    .page (.finishPlacesData 0 (some [2]) true)]

theorem strip_eq_storage_of_run_sample : ∃ final detail,
    PartialRun.run App.runtimeStep (launched none ∅ sampleDirectories) openedActions = some final ∧
    final.detailPages 1 = some detail ∧
    detail.strip.lookup "vitosha.jpg" = some (sampleStorage "vitosha.jpg") := by
  have hruns :
      (PartialRun.run App.runtimeStep (launched none ∅ sampleDirectories) openedActions).bind
      (fun final ↦ (final.detailPages 1).map fun detail ↦
        decide ((final.heap.read detail.detailPlace).key = "boyana" ∧
          "vitosha.jpg" ∈ (final.heap.read detail.detailPlace).imageNames ∧
          ¬ final.UnderWay "boyana" "vitosha.jpg")) = some true := by
    decide +kernel
  obtain ⟨final, hrun, hshown⟩ := Option.bind_eq_some_iff.mp hruns
  obtain ⟨detail, hdetail, hfacts⟩ := Option.map_eq_some_iff.mp hshown
  obtain ⟨hkey, hname, hrest⟩ := of_decide_eq_true hfacts
  exact ⟨final, detail, hrun, hdetail, strip_eq_storage_of_run (agrees_empty sampleStorage)
    (by decide +kernel) (by decide +kernel) hrun hdetail hkey hname hrest⟩

end App

end BeenHere
