import BeenHere.Coherence
import BeenHere.Traps

/-!
# Runs of one app

Everything that happens to a running app on one device: the user signs in and out, pages are opened
and closed, observers run, and the storage answers the requests of both download methods. The answer
to a request of `getDataForImageName` goes to the object that the request was made for, whether or
not the store still holds it.

`browsed_of_runtimeStep` says what all these actions but the observers have in common: the store
keeps its entries, no object loses an image, and the list pages show entries of the store or what
they showed before. `Displayed` is what every run from launch keeps (`Displayed.runtimeStep`).
-/

set_option autoImplicit false
set_option relaxedAutoImplicit false

namespace BeenHere

open Firebase ObjectHeap Traced

namespace App

/-- The answer to a request of `getDataForImageName`. -/
def finishFirstImage (app : App) (request : ImageRequest) (answer : Option Data) (written : Bool) :
    Method App :=
  match answer with
  | none => pure app
  | some data =>
    if (app.heap.read request.place).placeImages.lookup request.name = none then
      (app.setImage request.place request.name data).writeImageDataToFile request.name data written
    else pure app

inductive RuntimeAction
  | signIn (uid : String)
  | signOut
  | page (action : PageAction)
  | finishFirstImage (index : ℕ) (answer : Option Data) (written : Bool)

def runtimeCall (app : App) : RuntimeAction → Method App
  | .signIn uid => pure { app with currentUser := some uid }
  | .signOut => pure { app with currentUser := none }
  | .page action => app.pageCall action
  | .finishFirstImage index answer written => do
    let request ← force (app.requestAt index .firstImage)
    finishFirstImage { app with requests := app.requests.eraseIdx index } request answer written

def runtimeStep (app : App) (action : RuntimeAction) : Option App := (app.runtimeCall action).result

variable {app next : App}

/-! ### Actions other than events -/

/-- Every list page shows entries of the store, or what it showed before. -/
def PagesShow (before after : App) : Prop :=
  ∀ page list, after.listPages page = some list → ∀ ref ∈ list.places,
    ref ∈ after.places ∨ ∃ old, before.listPages page = some old ∧ ref ∈ old.places

/-- What an action that is not an event does to the store, the objects and the list pages. -/
structure Browsed (before after : App) : Prop where
  places : after.places = before.places
  next : after.heap.next = before.heap.next
  read : ∀ ref, (after.heap.read ref).withoutImages = (before.heap.read ref).withoutImages
  images : ImagesGrow before.heap after.heap
  pages : PagesShow before after

theorem pagesShow_of_listPages {before after : App} (h : after.listPages = before.listPages) :
    PagesShow before after :=
  fun _ list hlist _ href ↦ Or.inr ⟨list, h ▸ hlist, href⟩

theorem Browsed.refl (app : App) : Browsed app app :=
  ⟨rfl, rfl, fun _ ↦ rfl, fun _ _ h ↦ h, pagesShow_of_listPages rfl⟩

theorem mem_places_of_listed {showOnlyVisited : Bool} {places : List Ref} {ref : Ref}
    (h : app.WellFormed) (hlisted : app.listed showOnlyVisited = some places)
    (href : ref ∈ places) : ref ∈ app.places := by
  cases showOnlyVisited with
  | false => exact Option.some.inj hlisted ▸ href
  | true =>
    have hvisited : app.visitedPlaces = some places := hlisted
    rcases isSome_visitedPlaces_iff.mp (Option.isSome_of_eq_some hvisited) with huser | hempty
    · obtain ⟨uid, hname⟩ := Option.isSome_iff_exists.mp huser
      rw [visitedPlaces_eq h hname, Option.some.injEq] at hvisited
      exact (List.mem_filter.mp (hvisited ▸ href)).1
    · rw [visitedPlaces, hempty] at hvisited
      rw [← Option.some.inj hvisited] at href
      exact (List.not_mem_nil href).elim

/-- After a notification the page of the delegate shows entries of the store. -/
theorem mem_places_of_refresh (h : app.WellFormed) {page : PageId} {list : ListPage}
    (hpage : app.delegate = some page) (hlist : app.refresh.listPages page = some list) {ref : Ref}
    (href : ref ∈ list.places) : ref ∈ app.places := by
  simp only [refresh, if_pos hpage] at hlist
  obtain ⟨before, _, rfl⟩ := Option.map_eq_some_iff.mp hlist
  cases hlisted : app.listed before.showOnlyVisited with
  | none =>
    rw [hlisted] at href
    exact (List.not_mem_nil href).elim
  | some places =>
    rw [hlisted] at href
    exact mem_places_of_listed h hlisted href

/-- A notification leaves the other list pages as they are. -/
theorem listPages_refresh_of_ne {page : PageId} (hpage : app.delegate ≠ some page) :
    app.refresh.listPages page = app.listPages page := by
  simp only [refresh, if_neg hpage]

theorem pagesShow_refresh (h : app.WellFormed) : PagesShow app app.refresh := by
  intro page list hlist ref href
  by_cases hpage : app.delegate = some page
  · exact Or.inl (mem_places_of_refresh h hpage hlist href)
  · exact Or.inr ⟨list, listPages_refresh_of_ne hpage ▸ hlist, href⟩

theorem browsed_openList (h : app.WellFormed) {showOnlyVisited : Bool}
    (hnext : (app.openList showOnlyVisited).result = some next) : Browsed app next := by
  obtain ⟨places, hplaces, rfl⟩ := exists_of_openList hnext
  refine ⟨rfl, rfl, fun _ ↦ rfl, fun _ _ hloaded ↦ hloaded, fun page list hlist ref href ↦ ?_⟩
  by_cases hpage : page = app.nextPage
  · simp only [hpage, Function.update_self, Option.some.injEq] at hlist
    subst hlist
    have hmem := mem_places_of_listed h hplaces href
    exact Or.inl hmem
  · simp only [Function.update_of_ne hpage] at hlist
    exact Or.inr ⟨list, hlist, href⟩

/-- Setting an image of an object, and then a notification. -/
theorem browsed_setImage (h : app.WellFormed) (place : Ref) (name : String) (data : Data)
    (documents : Dictionary String Data) :
    Browsed app (refresh { app.setImage place name data with documents }) := by
  have hsame := sameButImages_setImage app place name data
  have hwell : WellFormed { app.setImage place name data with documents } :=
    ⟨(h.withHeap hsame).live, (h.withHeap hsame).keys⟩
  exact ⟨rfl, hsame.1, hsame.2.1, imagesGrow_setImage app place name data, pagesShow_refresh hwell⟩

theorem browsed_finishFirstImage (h : app.WellFormed) {request : ImageRequest}
    {answer : Option Data} {written : Bool}
    (hnext : (app.finishFirstImage request answer written).result = some next) :
    Browsed app next := by
  unfold finishFirstImage at hnext
  split at hnext
  · exact Option.some.inj hnext ▸ Browsed.refl app
  · rename_i data
    split_ifs at hnext
    · rcases cases_of_writeImageDataToFile hnext with rfl | rfl
      · exact browsed_setImage h ..
      · have hsame := sameButImages_setImage app request.place request.name data
        exact ⟨rfl, hsame.1, hsame.2.1, imagesGrow_setImage app _ _ _, pagesShow_of_listPages rfl⟩
    · exact Option.some.inj hnext ▸ Browsed.refl app

/-- Removing the request that is answered changes none of this. -/
theorem Browsed.of_requests {requests : List ImageRequest}
    (h : Browsed { app with requests := requests } next) : Browsed app next :=
  ⟨h.places, h.next, h.read, h.images, h.pages⟩

theorem browsed_of_runtimeStep (h : app.WellFormed) {action : RuntimeAction}
    (haction : ∀ event, action ≠ .page (.observe event))
    (hnext : app.runtimeStep action = some next) : Browsed app next := by
  cases action with
  | signIn uid =>
    exact Option.some.inj hnext ▸ ⟨rfl, rfl, fun _ ↦ rfl, fun _ _ h ↦ h, pagesShow_of_listPages rfl⟩
  | signOut =>
    exact Option.some.inj hnext ▸ ⟨rfl, rfl, fun _ ↦ rfl, fun _ _ h ↦ h, pagesShow_of_listPages rfl⟩
  | finishFirstImage index answer written =>
    obtain ⟨request, _, hanswered⟩ := Option.bind_eq_some_iff.mp hnext
    have hremoved : WellFormed { app with requests := app.requests.eraseIdx index } :=
      ⟨h.live, h.keys⟩
    exact (browsed_finishFirstImage hremoved hanswered).of_requests
  | page action =>
    cases action with
    | observe event => exact absurd rfl (haction event)
    | openList =>
      have hopened : (app.openList false).result = some next := hnext
      exact browsed_openList h hopened
    | openMyPlaces =>
      rcases cases_of_openMyPlaces hnext with hopened | rfl
      · exact browsed_openList h hopened
      · exact Browsed.refl next
    | closeList page =>
      obtain rfl := Option.some.inj hnext
      refine ⟨rfl, rfl, fun _ ↦ rfl, fun _ _ hloaded ↦ hloaded, fun other list hlist ref href ↦ ?_⟩
      by_cases hother : other = page
      · simp [closeList, hother] at hlist
      · simp only [closeList, Function.update_of_ne hother] at hlist
        exact Or.inr ⟨list, hlist, href⟩
    | openDetail page row =>
      obtain ⟨list, place, heap, requests, _, _, hsame, hgrow, rfl⟩ := exists_of_openDetail hnext
      exact ⟨rfl, hsame.1, hsame.2.1, hgrow, pagesShow_of_listPages rfl⟩
    | closeDetail page =>
      exact Option.some.inj hnext ▸
        ⟨rfl, rfl, fun _ ↦ rfl, fun _ _ h ↦ h, pagesShow_of_listPages rfl⟩
    | finishPlacesData index answer written =>
      obtain ⟨request, _, hanswered⟩ := Option.bind_eq_some_iff.mp hnext
      have hremoved : WellFormed { app with requests := app.requests.eraseIdx index } :=
        ⟨h.live, h.keys⟩
      rcases exists_of_finishPlacesData hanswered with
        rfl | ⟨place, heap, documents, hsame, hgrow, rfl⟩
      · exact (Browsed.refl _).of_requests
      · have hheap : WellFormed { app with
            heap := heap, requests := app.requests.eraseIdx index, documents := documents } :=
          ⟨(hremoved.withHeap hsame).live, (hremoved.withHeap hsame).keys⟩
        exact ⟨rfl, hsame.1, hsame.2.1, hgrow, pagesShow_refresh hheap⟩

/-! ### Events -/

/-- What an event does to the store, the objects and the list pages. It allocates a new place, with
image data only after `childAdded`; the entry of its key is the new place after `childChanged`, and
after `childAdded` if there was none, and no other entry changes. The page of the delegate shows
entries of the store, and the other list pages what they showed before. -/
structure Observed (event : Event) (decoded newPlace : Place) (before after : App) : Prop where
  decodes : Place.placeFromDictionary event.child event.key = some decoded
  hasImage : decoded.imageNames ≠ []
  fresh : newPlace.withoutImages = decoded.withoutImages
  unloaded : event.kind = .childChanged → newPlace = decoded
  heap : after.heap = before.heap.alloc newPlace
  kept : ∀ key ref, before.entry key = some ref →
    ¬ (event.kind = .childChanged ∧ key = event.key) → after.entry key = some ref
  origin : ∀ key ref, after.entry key = some ref → before.entry key = some ref ∨
    ref = before.heap.next ∧ key = event.key
  added : event.kind = .childAdded → before.entry event.key = none →
    after.entry event.key = some before.heap.next
  replaced : event.kind = .childChanged → (before.entry event.key).isSome →
    after.entry event.key = some before.heap.next
  directories : after.directories = before.directories
  delegatePage : ∀ page list, before.delegate = some page → after.listPages page = some list →
    ∀ ref ∈ list.places, ref ∈ after.places
  otherPages : ∀ page, before.delegate ≠ some page → after.listPages page = before.listPages page

theorem Observed.pagesShow {event : Event} {decoded newPlace : Place} {before after : App}
    (h : Observed event decoded newPlace before after) : PagesShow before after := by
  intro page list hlist ref href
  by_cases hpage : before.delegate = some page
  · exact Or.inl (h.delegatePage page list hpage hlist ref href)
  · exact Or.inr ⟨list, h.otherPages page hpage ▸ hlist, href⟩

/-- The entries of a store that is kept while a new place is allocated. -/
theorem key_alloc_of_entry (h : app.WellFormed) (newPlace : Place) {key : String} {ref : Ref}
    (hentry : app.entry key = some ref) :
    ref ∈ app.places ∧ ((app.heap.alloc newPlace).read ref).key = key := by
  obtain ⟨href, hkey⟩ := (entry_eq_some_iff h).mp hentry
  exact ⟨href, by rw [Heap.read_alloc_of_lt _ _ (h.live ref href), hkey]⟩

/-- An addition appends the new place or leaves the store as it is. -/
theorem observed_of_childAdded (h : app.WellFormed) {event : Event}
    (hkind : event.kind = .childAdded) (hnext : app.handle event = some next) :
    ∃ decoded newPlace, Observed event decoded newPlace app next := by
  obtain ⟨⟨place, hplace, himages⟩, _⟩ :=
    isSome_handle_iff.mp (Option.isSome_of_eq_some hnext)
  have hstore := h.handle hnext
  have hunchanged : ¬ event.kind = .childChanged := by
    rw [hkind]
    exact EventKind.noConfusion
  simp only [handle, observe, hkind] at hnext
  obtain ⟨decoded, newPlace, requests, hdecoded, hsame, rfl⟩ := exists_of_childAdded hnext
  have hwell : WellFormed { app with
      heap := app.heap.alloc newPlace
      places :=
        if containsKey (app.heap.alloc newPlace) app.places newPlace.key = false then
          app.places ++ [app.heap.next]
        else app.places
      requests := requests } := ⟨hstore.live, hstore.keys⟩
  obtain rfl := Option.some.inj (hplace.symm.trans hdecoded)
  have hkey : newPlace.key = event.key := by
    rw [Place.key_eq_of_withoutImages hsame]
    exact (Place.decodes_iff.mp hdecoded).key
  refine ⟨place, newPlace, hdecoded, himages, hsame, fun hchanged ↦ absurd hchanged hunchanged, rfl,
    fun key ref hentry _ ↦ ?_, fun key ref hentry ↦ ?_, fun _ hnone ↦ ?_,
    fun hchanged ↦ absurd hchanged hunchanged, rfl,
    fun page list hpage hlist ref href ↦ mem_places_of_refresh hwell hpage hlist href,
    fun page hpage ↦ listPages_refresh_of_ne hpage⟩
  · obtain ⟨href, hread⟩ := key_alloc_of_entry h newPlace hentry
    refine (entry_eq_some_iff hstore).mpr ⟨?_, hread⟩
    simp only [places_refresh]
    split_ifs
    · exact List.mem_append_left _ href
    · exact href
  · obtain ⟨href, hread⟩ := (entry_eq_some_iff hstore).mp hentry
    simp only [places_refresh, heap_refresh] at href hread
    have hold (hmem : ref ∈ app.places) : app.entry key = some ref := by
      rw [Heap.read_alloc_of_lt _ _ (h.live ref hmem)] at hread
      exact (entry_eq_some_iff h).mpr ⟨hmem, hread⟩
    split_ifs at href
    · rcases List.mem_append.mp href with hmem | hnew
      · exact Or.inl (hold hmem)
      · obtain rfl := List.mem_singleton.mp hnew
        rw [Heap.read_alloc_next] at hread
        exact Or.inr ⟨rfl, hread.symm.trans hkey⟩
    · exact Or.inl (hold href)
  · have habsent : containsKey (app.heap.alloc newPlace) app.places newPlace.key = false := by
      rw [hkey]
      exact (containsKey_alloc_eq_false_iff h).mpr hnone
    refine (entry_eq_some_iff hstore).mpr ⟨?_, by rw [heap_refresh, Heap.read_alloc_next, hkey]⟩
    simp only [places_refresh, if_pos habsent]
    exact List.mem_append_right _ List.mem_cons_self

/-- A change replaces the entry with its key. -/
theorem observed_of_childChanged (h : app.WellFormed) {event : Event}
    (hkind : event.kind = .childChanged) (hnext : app.handle event = some next) :
    ∃ decoded newPlace, Observed event decoded newPlace app next := by
  obtain ⟨⟨place, hplace, himages⟩, _⟩ :=
    isSome_handle_iff.mp (Option.isSome_of_eq_some hnext)
  have hstore := h.handle hnext
  simp only [handle, observe, hkind] at hnext
  obtain ⟨newPlace, requests, hdecoded, _, rfl⟩ := exists_of_childChanged hnext
  obtain rfl := Option.some.inj (hplace.symm.trans hdecoded)
  have hkey : place.key = event.key := (Place.decodes_iff.mp hdecoded).key
  have hkeys : (app.places.map fun ref ↦ ((app.heap.alloc place).read ref).key).Nodup := by
    rw [h.map_key_alloc]
    exact h.keys
  have hwell : WellFormed { app with
      heap := app.heap.alloc place
      places := replaceEntry (app.heap.alloc place) app.heap.next app.places
      requests := requests } := ⟨hstore.live, hstore.keys⟩
  refine ⟨place, place, hdecoded, himages, rfl, fun _ ↦ rfl, rfl,
    fun key ref hentry hother ↦ ?_, fun key ref hentry ↦ ?_, fun hadded ↦ ?_, fun _ hsome ↦ ?_, rfl,
    fun page list hpage hlist ref href ↦ mem_places_of_refresh hwell hpage hlist href,
    fun page hpage ↦ listPages_refresh_of_ne hpage⟩
  · obtain ⟨href, hread⟩ := key_alloc_of_entry h place hentry
    refine (entry_eq_some_iff hstore).mpr ⟨mem_replaceEntry_of_ne href ?_, hread⟩
    rw [hread, Heap.read_alloc_next, hkey]
    exact fun hsame ↦ hother ⟨hkind, hsame⟩
  · obtain ⟨href, hread⟩ := (entry_eq_some_iff hstore).mp hentry
    simp only [places_refresh, heap_refresh] at href hread
    rcases mem_replaceEntry hkeys href with rfl | ⟨hmem, _⟩
    · rw [Heap.read_alloc_next] at hread
      exact Or.inr ⟨rfl, hread.symm.trans hkey⟩
    · rw [Heap.read_alloc_of_lt _ _ (h.live ref hmem)] at hread
      exact Or.inl ((entry_eq_some_iff h).mpr ⟨hmem, hread⟩)
  · rw [hkind] at hadded
    cases hadded
  · obtain ⟨ref, hentry⟩ := Option.isSome_iff_exists.mp hsome
    obtain ⟨href, hread⟩ := key_alloc_of_entry h place hentry
    refine (entry_eq_some_iff hstore).mpr ⟨?_, by rw [heap_refresh, Heap.read_alloc_next, hkey]⟩
    simp only [places_refresh]
    rcases replaceEntry_eq (app.heap.alloc place) app.heap.next app.places with
      ⟨hnone, _⟩ | ⟨before, old, after, _, _, hreplaced⟩
    · exact absurd (by rw [hread, Heap.read_alloc_next, hkey]) (hnone ref href)
    · rw [hreplaced]
      exact List.mem_append_right _ List.mem_cons_self

theorem observed_of_handle (h : app.WellFormed) {event : Event}
    (hnext : app.handle event = some next) :
    ∃ decoded newPlace, Observed event decoded newPlace app next := by
  cases hkind : event.kind with
  | childAdded => exact observed_of_childAdded h hkind hnext
  | childChanged => exact observed_of_childChanged h hkind hnext

/-! ### Every run from launch -/

/-- What the list pages show are objects with an image, and so are the entries of the store. -/
structure Displayed (app : App) : Prop where
  store : app.WellFormed
  entries : ∀ ref ∈ app.places, (app.heap.read ref).imageNames ≠ []
  rows : ∀ page list, app.listPages page = some list → ∀ ref ∈ list.places,
    ref < app.heap.next ∧ (app.heap.read ref).imageNames ≠ []

/-- The list pages after an action. Assumes: the entries of the store have an image after it, and
old objects keep their image names. -/
theorem Displayed.of_pagesShow (h : app.Displayed) (hstore : next.WellFormed)
    (hentries : ∀ ref ∈ next.places, (next.heap.read ref).imageNames ≠ [])
    (hlive : app.heap.next ≤ next.heap.next)
    (hold : ∀ ref < app.heap.next,
      (next.heap.read ref).imageNames = (app.heap.read ref).imageNames)
    (hpages : PagesShow app next) : next.Displayed := by
  refine ⟨hstore, hentries, fun page list hlist ref href ↦ ?_⟩
  rcases hpages page list hlist ref href with hmem | ⟨before, hbefore, hmem⟩
  · exact ⟨hstore.live ref hmem, hentries ref hmem⟩
  · obtain ⟨hlt, himages⟩ := h.rows page before hbefore ref hmem
    exact ⟨hlt.trans_le hlive, by rw [hold ref hlt]; exact himages⟩

theorem Browsed.wellFormed {before after : App} (h : Browsed before after)
    (hstore : before.WellFormed) : after.WellFormed :=
  hstore.of_key h.places h.next fun ref ↦ Place.key_eq_of_withoutImages (h.read ref)

theorem Displayed.runtimeStep (h : app.Displayed) {action : RuntimeAction}
    (hnext : app.runtimeStep action = some next) : next.Displayed := by
  by_cases hevent : ∃ event, action = .page (.observe event)
  · obtain ⟨event, rfl⟩ := hevent
    have hhandled : app.handle event = some next := hnext
    have hstore := h.store.handle hhandled
    obtain ⟨decoded, newPlace, hobserved⟩ := observed_of_handle h.store hhandled
    have hnew : newPlace.imageNames ≠ [] := by
      rw [Place.imageNames_eq_of_withoutImages hobserved.fresh]
      exact hobserved.hasImage
    have hold (ref : Ref) (href : ref < app.heap.next) :
        next.heap.read ref = app.heap.read ref := by
      rw [hobserved.heap, Heap.read_alloc_of_lt _ _ href]
    refine h.of_pagesShow hstore (fun ref href ↦ ?_) ?_ (fun ref href ↦ by rw [hold ref href])
      hobserved.pagesShow
    · have hentry := (entry_eq_some_iff hstore).mpr ⟨href, rfl⟩
      rcases hobserved.origin _ ref hentry with hbefore | ⟨rfl, _⟩
      · have hmem := ((entry_eq_some_iff h.store).mp hbefore).1
        rw [hold ref (h.store.live ref hmem)]
        exact h.entries ref hmem
      · rw [hobserved.heap, Heap.read_alloc_next]
        exact hnew
    · rw [hobserved.heap]
      exact Nat.le_succ _
  · have hbrowsed := browsed_of_runtimeStep h.store
      (fun event haction ↦ hevent ⟨event, haction⟩) hnext
    have hnames (ref : Ref) : (next.heap.read ref).imageNames = (app.heap.read ref).imageNames :=
      Place.imageNames_eq_of_withoutImages (hbrowsed.read ref)
    refine h.of_pagesShow (hbrowsed.wellFormed h.store) (fun ref href ↦ ?_) hbrowsed.next.ge
      (fun ref _ ↦ hnames ref) hbrowsed.pages
    rw [hnames]
    exact h.entries ref (hbrowsed.places ▸ href)

theorem displayed_launched (currentUser : Option String) (documents : Dictionary String Data)
    (directories : String → Bool) :
    (launched currentUser documents directories).Displayed where
  store := ⟨fun _ href ↦ (List.not_mem_nil href).elim, List.nodup_nil⟩
  entries _ href := (List.not_mem_nil href).elim
  rows _ _ hlist := by cases hlist

theorem displayed_of_run {currentUser : Option String} {documents : Dictionary String Data}
    {directories : String → Bool} {actions : List RuntimeAction} {final : App}
    (hrun : PartialRun.run App.runtimeStep (launched currentUser documents directories) actions =
      some final) : final.Displayed :=
  PartialRun.run_invariant_on (fun _ _ _ _ h hstep ↦ Displayed.runtimeStep h hstep)
    (displayed_launched currentUser documents directories) hrun

/-- `samplePlace` after a visit of the user `ana`. -/
def visitedPlace : Place := { samplePlace with visitors := ["ana"] }

end App

end BeenHere
