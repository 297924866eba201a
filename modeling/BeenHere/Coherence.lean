import BeenHere.Library.PartialRun
import BeenHere.Network
import BeenHere.Pages

/-!
# Open pages and the store

What the open pages show while list pages and detail pages are opened and closed, observers run and
downloads complete. The store has one delegate, which every list page takes over when it is loaded,
and which is gone when that page is closed; the pages that hold an earlier copy are told nothing. A
change replaces the object of an entry, and a detail page keeps the old one.

The pages show the current store throughout a run exactly when every event that changes what an open
list page should show finds that page in the delegate, no change comes for the place of an open
detail page, and a detail page opened on a place already shown loads no further image
(`coherent_iff`).
-/

set_option autoImplicit false
set_option relaxedAutoImplicit false

namespace BeenHere

open Firebase ObjectHeap Traced

namespace App

/-! ### What the pages should show -/

/-- Every list page shows what it would copy from the store now. Every detail page shows the entry
of the store for the key of its place, with all its images. -/
structure Coherent (app : App) : Prop where
  list : ∀ page list, app.listPages page = some list →
    app.listed list.showOnlyVisited = some list.places
  detail : ∀ page detail, app.detailPages page = some detail →
    app.entry (app.heap.read detail.detailPlace).key = some detail.detailPlace ∧
      detail.strip = (app.heap.read detail.detailPlace).placeImages

/-- What happens to the pages and the store. `finishPlacesData` answers the request at a position,
and says whether the file is written. -/
inductive PageAction
  | openList
  | openMyPlaces
  | closeList (page : PageId)
  | openDetail (page : PageId) (row : ℕ)
  | closeDetail (page : PageId)
  | observe (event : Event)
  | finishPlacesData (index : ℕ) (answer : Option Data) (written : Bool)

/-- The request at a position, if it comes from the method. -/
def requestAt (app : App) (index : ℕ) (source : RequestSource) : Option ImageRequest :=
  app.requests[index]?.filter fun request ↦ request.source = source

def pageCall (app : App) : PageAction → Method App
  | .openList => app.openList false
  | .openMyPlaces => app.openMyPlaces
  | .closeList page => pure (app.closeList page)
  | .openDetail page row => force (app.openDetail page row)
  | .closeDetail page => pure (app.closeDetail page)
  | .observe event => app.observe event
  | .finishPlacesData index answer written => do
    let request ← force (app.requestAt index .allImages)
    finishPlacesData { app with requests := app.requests.eraseIdx index } request answer written

def pageStep (app : App) (action : PageAction) : Option App := (app.pageCall action).result

/-- Whether a list page shows a place. -/
def shows (currentUser : Option String) (showOnlyVisited : Bool) (place : Place) : Bool :=
  !showOnlyVisited || currentUser.any fun uid ↦ place.visitors.contains uid

/-- Whether an event changes what a list page should show: it adds a place that the page shows, or
it changes one that the page shows before or after. -/
def Affects (app : App) (event : Event) (place : Place) (showOnlyVisited : Bool) : Prop :=
  match event.kind with
  | .childAdded => app.entry event.key = none ∧ shows app.currentUser showOnlyVisited place
  | .childChanged => ∃ ref, app.entry event.key = some ref ∧
      (shows app.currentUser showOnlyVisited (app.heap.read ref) ∨
        shows app.currentUser showOnlyVisited place)

/-- The pages that an action affects learn of it. An event affects no list page but the delegate,
and a change no detail page. A place that a detail page shows is opened again only if the documents
directory has no image for it that it has not loaded. -/
def Notified (app : App) : PageAction → Prop
  | .observe event => ∀ place, Place.placeFromDictionary event.child event.key = some place →
      (∀ page list, app.listPages page = some list →
        app.Affects event place list.showOnlyVisited → app.delegate = some page) ∧
      (event.kind = .childChanged → ∀ page detail, app.detailPages page = some detail →
        (app.heap.read detail.detailPlace).key ≠ event.key)
  | .openDetail page row => ∀ list place other detail, app.listPages page = some list →
      list.places[row]? = some place → app.detailPages other = some detail →
      detail.detailPlace = place → ∀ name ∈ (app.heap.read place).imageNames,
        app.documents.lookup name = none ∨ (app.heap.read place).placeImages.lookup name ≠ none
  | _ => True

/-! ### Listings -/

/-- What a list page should show. -/
def listing (app : App) (showOnlyVisited : Bool) : List Ref :=
  app.places.filter fun ref ↦ shows app.currentUser showOnlyVisited (app.heap.read ref)

variable {app next : App}

theorem requestAt_eq_some_iff {index : ℕ} {source : RequestSource} {request : ImageRequest} :
    app.requestAt index source = some request ↔
      app.requests[index]? = some request ∧ request.source = source := by
  simp [requestAt, Option.filter_eq_some_iff]

theorem listed_true (app : App) : app.listed true = app.visitedPlaces := rfl

theorem listed_false (app : App) : app.listed false = some app.places := rfl

theorem visitedPlaces_eq (h : app.WellFormed) {uid : String} (huser : app.currentUser = some uid) :
    app.visitedPlaces =
      some (app.places.filter fun ref ↦ (app.heap.read ref).visitors.contains uid) := by
  have hloop (rest visited : List Ref)
      (hkeys : ((visited ++ rest).map fun ref ↦ (app.heap.read ref).key).Nodup) :
      rest.foldlM app.visitedStep visited =
        some (visited ++ rest.filter fun ref ↦ (app.heap.read ref).visitors.contains uid) := by
    induction rest generalizing visited with
    | nil =>
      rw [List.foldlM_nil, List.filter_nil, List.append_nil]
      rfl
    | cons place rest ih =>
      have hfresh : containsKey app.heap visited (app.heap.read place).key = false := by
        refine containsKey_eq_false_iff.mpr fun ref href hkey ↦ ?_
        rw [List.map_append, List.map_cons, List.nodup_append] at hkeys
        exact hkeys.2.2 _ (List.mem_map_of_mem href) _ List.mem_cons_self hkey
      rw [List.foldlM_cons, visitedStep, huser, Option.bind_some, hfresh]
      by_cases hvisited : (app.heap.read place).visitors.contains uid = true
      · rw [if_pos (by simp only [hvisited, decide_true, Bool.and_self]), List.filter_cons,
          if_pos hvisited]
        have hrest := ih (visited ++ [place]) (by rwa [List.append_assoc])
        rwa [List.append_assoc] at hrest
      · rw [if_neg (by simp only [hvisited]; simp), List.filter_cons, if_neg hvisited]
        refine ih visited (hkeys.sublist (List.Sublist.map _ ?_))
        exact List.Sublist.append_left (List.sublist_cons_self place rest) visited
  exact hloop app.places [] h.keys

theorem listed_eq (h : app.WellFormed) (huser : app.currentUser.isSome) (showOnlyVisited : Bool) :
    app.listed showOnlyVisited = some (app.listing showOnlyVisited) := by
  obtain ⟨uid, hname⟩ := Option.isSome_iff_exists.mp huser
  cases showOnlyVisited with
  | false => simp [listed_false, listing, shows]
  | true =>
    have hshows (place : Place) :
        shows app.currentUser true place = place.visitors.contains uid := by
      simp [shows, hname]
    rw [listed_true, visitedPlaces_eq h hname, listing]
    congr 1
    exact List.filter_congr fun ref _ ↦ by simp [hshows]

theorem mem_listing {showOnlyVisited : Bool} {ref : Ref} (h : ref ∈ app.listing showOnlyVisited) :
    ref ∈ app.places :=
  (List.mem_filter.mp h).1

theorem entry_eq_none_iff {key : String} :
    app.entry key = none ↔ ∀ ref ∈ app.places, (app.heap.read ref).key ≠ key := by
  simp [entry]

theorem entry_eq_some_iff (h : app.WellFormed) {key : String} {ref : Ref} :
    app.entry key = some ref ↔ ref ∈ app.places ∧ (app.heap.read ref).key = key := by
  refine ⟨fun hentry ↦ ⟨List.mem_of_find?_eq_some hentry, key_of_entry hentry⟩,
    fun ⟨href, hkey⟩ ↦ ?_⟩
  cases hentry : app.entry key with
  | none => exact absurd hkey (entry_eq_none_iff.mp hentry ref href)
  | some other =>
    have hsame := (key_of_entry hentry).trans hkey.symm
    rw [List.inj_on_of_nodup_map h.keys (List.mem_of_find?_eq_some hentry) href hsame]

/-- After a notification the pages are right exactly if each of them is the delegate or what it
should show has not changed. -/
theorem list_refresh_iff {changed : App} (h : app.WellFormed) (huser : app.currentUser.isSome)
    (hlist : ∀ page list, app.listPages page = some list →
      app.listed list.showOnlyVisited = some list.places)
    (hchanged : changed.WellFormed) (hcurrentUser : changed.currentUser = app.currentUser)
    (hdelegate : changed.delegate = app.delegate) (hpages : changed.listPages = app.listPages) :
    (∀ page list, changed.refresh.listPages page = some list →
        changed.refresh.listed list.showOnlyVisited = some list.places) ↔
      ∀ page list, app.listPages page = some list →
        changed.listing list.showOnlyVisited ≠ app.listing list.showOnlyVisited →
          app.delegate = some page := by
  have hlisted (showOnlyVisited : Bool) : changed.refresh.listed showOnlyVisited =
      some (changed.listing showOnlyVisited) :=
    listed_eq hchanged (hcurrentUser ▸ huser) showOnlyVisited
  have hrefreshed (page : PageId) : changed.refresh.listPages page =
      if app.delegate = some page then
        (app.listPages page).map fun list ↦
          { list with places := changed.listing list.showOnlyVisited }
      else app.listPages page := by
    rw [refresh, hdelegate, hpages]
    refine if_congr Iff.rfl (Option.map_congr fun list _ ↦ ?_) rfl
    rw [listed_eq hchanged (hcurrentUser ▸ huser), Option.getD_some]
  constructor
  · intro hafter page list hpage hdiffers
    by_contra hother
    have hsame := hafter page list (by rw [hrefreshed, if_neg hother, hpage])
    have hbefore := hlist page list hpage
    rw [hlisted, Option.some.injEq] at hsame
    rw [listed_eq h huser, Option.some.injEq] at hbefore
    exact hdiffers (hsame.trans hbefore.symm)
  · intro htold page list hpage
    rw [hrefreshed] at hpage
    rw [hlisted]
    split_ifs at hpage with hself
    · obtain ⟨before, _, rfl⟩ := Option.map_eq_some_iff.mp hpage
      rfl
    · have hsame : changed.listing list.showOnlyVisited = app.listing list.showOnlyVisited := by
        by_contra hdiffers
        exact hself (htold page list hpage hdiffers)
      rw [hsame, ← listed_eq h huser, hlist page list hpage]

/-! ### What the observers do to the listings -/

theorem listing_alloc_append {newPlace : Place} {requests : List ImageRequest}
    (h : app.WellFormed) (showOnlyVisited : Bool) :
    listing { app with
        heap := app.heap.alloc newPlace
        places := app.places ++ [app.heap.next]
        requests := requests } showOnlyVisited =
      app.listing showOnlyVisited ++
        if shows app.currentUser showOnlyVisited newPlace then [app.heap.next] else [] := by
  have hold : app.places.filter (fun ref ↦
      shows app.currentUser showOnlyVisited ((app.heap.alloc newPlace).read ref)) =
        app.listing showOnlyVisited :=
    List.filter_congr fun ref href ↦ by rw [Heap.read_alloc_of_lt _ _ (h.live ref href)]
  have hnew : [app.heap.next].filter (fun ref ↦
      shows app.currentUser showOnlyVisited ((app.heap.alloc newPlace).read ref)) =
        if shows app.currentUser showOnlyVisited newPlace then [app.heap.next] else [] := by
    rw [List.filter_cons, Heap.read_alloc_next]
    simp
  exact (List.filter_append ..).trans (congrArg₂ _ hold hnew)

/-- The first entry with the key of a new place is replaced, if there is one. -/
theorem replaceEntry_eq (heap : Heap Place) (place : Ref) (refs : List Ref) :
    (∀ ref ∈ refs, (heap.read ref).key ≠ (heap.read place).key) ∧
        replaceEntry heap place refs = refs ∨
      ∃ before ref after, refs = before ++ ref :: after ∧
        (heap.read ref).key = (heap.read place).key ∧
        replaceEntry heap place refs = before ++ place :: after := by
  induction refs with
  | nil => exact Or.inl ⟨fun _ href ↦ (List.not_mem_nil href).elim, rfl⟩
  | cons first rest ih =>
    rw [replaceEntry]
    split_ifs with hfirst
    · exact Or.inr ⟨[], first, rest, rfl, hfirst, rfl⟩
    · rcases ih with ⟨hnone, hrest⟩ | ⟨before, ref, after, rfl, hkey, hrest⟩
      · refine Or.inl ⟨fun ref href ↦ ?_, by rw [hrest]⟩
        rcases List.mem_cons.mp href with rfl | hmem
        · exact hfirst
        · exact hnone ref hmem
      · exact Or.inr ⟨first :: before, ref, after, rfl, hkey, by rw [hrest]; rfl⟩

theorem listing_alloc {newPlace : Place} {requests : List ImageRequest} (h : app.WellFormed)
    (showOnlyVisited : Bool) :
    listing { app with heap := app.heap.alloc newPlace, requests := requests } showOnlyVisited =
      app.listing showOnlyVisited :=
  List.filter_congr fun ref href ↦ by
    rw [← Heap.read_alloc_of_lt app.heap newPlace (h.live ref href)]

theorem filter_append_cons (shown : Ref → Bool) (before after : List Ref) (ref : Ref) :
    (before ++ ref :: after).filter shown =
      before.filter shown ++ ((if shown ref then [ref] else []) ++ after.filter shown) := by
  rw [List.filter_append, List.filter_cons]
  by_cases href : shown ref <;> simp [href]

/-- A replacement changes a listing if it shows the old place or the new one. -/
theorem listing_replaceEntry_ne_iff {newPlace : Place} {requests : List ImageRequest}
    (h : app.WellFormed) (showOnlyVisited : Bool) :
    listing { app with
        heap := app.heap.alloc newPlace
        places := replaceEntry (app.heap.alloc newPlace) app.heap.next app.places
        requests := requests } showOnlyVisited ≠ app.listing showOnlyVisited ↔
      ∃ ref, app.entry newPlace.key = some ref ∧
        (shows app.currentUser showOnlyVisited (app.heap.read ref) ∨
          shows app.currentUser showOnlyVisited newPlace) := by
  have hread {ref : Ref} (href : ref ∈ app.places) :
      (app.heap.alloc newPlace).read ref = app.heap.read ref :=
    Heap.read_alloc_of_lt _ _ (h.live ref href)
  rcases replaceEntry_eq (app.heap.alloc newPlace) app.heap.next app.places with
    ⟨hnone, hplaces⟩ | ⟨before, ref, after, hsplit, hkey, hplaces⟩
  · rw [hplaces, listing_alloc h]
    refine ⟨fun hne ↦ absurd rfl hne, fun ⟨ref, hentry, _⟩ ↦ ?_⟩
    obtain ⟨href, hkey⟩ := (entry_eq_some_iff h).mp hentry
    have hother := hnone ref href
    rw [hread href, Heap.read_alloc_next] at hother
    exact absurd hkey hother
  · have href : ref ∈ app.places := by
      rw [hsplit]
      exact List.mem_append_right _ List.mem_cons_self
    rw [hread href, Heap.read_alloc_next] at hkey
    have hentry : app.entry newPlace.key = some ref := (entry_eq_some_iff h).mpr ⟨href, hkey⟩
    have hnew : ref ≠ app.heap.next := Nat.ne_of_lt (h.live ref href)
    have hmemBefore : ∀ other ∈ before, other ∈ app.places := fun other hother ↦ by
      rw [hsplit]
      exact List.mem_append_left _ hother
    have hmemAfter : ∀ other ∈ after, other ∈ app.places := fun other hother ↦ by
      rw [hsplit]
      exact List.mem_append_right _ (List.mem_cons_of_mem _ hother)
    let shown : Ref → Bool := fun other ↦
      shows app.currentUser showOnlyVisited (app.heap.read other)
    have hfilter (refs : List Ref) (hrefs : ∀ other ∈ refs, other ∈ app.places) :
        refs.filter (fun other ↦ shows app.currentUser showOnlyVisited
          ((app.heap.alloc newPlace).read other)) = refs.filter shown :=
      List.filter_congr fun other hother ↦ by rw [hread (hrefs other hother)]
    have hlisting : listing { app with
        heap := app.heap.alloc newPlace
        places := replaceEntry (app.heap.alloc newPlace) app.heap.next app.places
        requests := requests } showOnlyVisited =
          before.filter shown ++
            ((if shows app.currentUser showOnlyVisited newPlace then [app.heap.next] else []) ++
              after.filter shown) := by
      rw [listing, hplaces]
      rw [filter_append_cons, Heap.read_alloc_next, hfilter before hmemBefore,
        hfilter after hmemAfter]
    have hbefore : app.listing showOnlyVisited =
        before.filter shown ++ ((if shown ref then [ref] else []) ++ after.filter shown) := by
      rw [listing, hsplit, filter_append_cons]
    rw [hlisting, hbefore, ne_eq, List.append_cancel_left_eq, List.append_cancel_right_eq]
    simp only [hentry, Option.some.injEq, exists_eq_left']
    by_cases hold : shows app.currentUser showOnlyVisited (app.heap.read ref) <;>
      by_cases hshown : shows app.currentUser showOnlyVisited newPlace <;>
        simp [shown, hold, hshown, hnew.symm]

theorem mem_replaceEntry_of_ne {heap : Heap Place} {place ref : Ref} {refs : List Ref}
    (href : ref ∈ refs) (hkey : (heap.read ref).key ≠ (heap.read place).key) :
    ref ∈ replaceEntry heap place refs := by
  rcases replaceEntry_eq heap place refs with ⟨_, hsame⟩ | ⟨before, old, after, rfl, hold, hsame⟩
  · rw [hsame]
    exact href
  · rw [hsame]
    rcases List.mem_append.mp href with hbefore | hrest
    · exact List.mem_append_left _ hbefore
    · rcases List.mem_cons.mp hrest with rfl | hafter
      · exact absurd hold hkey
      · exact List.mem_append_right _ (List.mem_cons_of_mem _ hafter)

/-- A fresh object with the key of an event is in the store exactly if the event has an entry. -/
theorem containsKey_alloc_eq_false_iff (h : app.WellFormed) {newPlace : Place} {key : String} :
    containsKey (app.heap.alloc newPlace) app.places key = false ↔ app.entry key = none := by
  rw [containsKey_eq_false_iff, entry_eq_none_iff]
  exact forall₂_congr fun ref href ↦ by rw [Heap.read_alloc_of_lt _ _ (h.live ref href)]

/-- What an observer does to the pages. The listings that it changes are those that the event
affects, and an entry is gone exactly if it was changed. -/
theorem exists_changed_of_handle (h : app.WellFormed) {event : Event}
    (hnext : app.handle event = some next) :
    ∃ place newPlace places requests,
      Place.placeFromDictionary event.child event.key = some place ∧
      next = refresh { app with
        heap := app.heap.alloc newPlace
        places := places
        requests := requests } ∧
      (∀ showOnlyVisited, listing { app with
          heap := app.heap.alloc newPlace
          places := places
          requests := requests } showOnlyVisited ≠ app.listing showOnlyVisited ↔
        app.Affects event place showOnlyVisited) ∧
      ∀ ref ∈ app.places, ref ∈ places ↔
        ¬ (event.kind = .childChanged ∧ (app.heap.read ref).key = event.key) := by
  have hread {newPlace : Place} {ref : Ref} (href : ref ∈ app.places) :
      (app.heap.alloc newPlace).read ref = app.heap.read ref :=
    Heap.read_alloc_of_lt _ _ (h.live ref href)
  cases hkind : event.kind with
  | childAdded =>
    simp only [handle, observe, hkind] at hnext
    obtain ⟨decoded, newPlace, requests, hdecoded, hsame, rfl⟩ := exists_of_childAdded hnext
    have hkey : newPlace.key = event.key := by
      rw [Place.key_eq_of_withoutImages hsame]
      exact (Place.decodes_iff.mp hdecoded).key
    have hshows (showOnlyVisited : Bool) : shows app.currentUser showOnlyVisited newPlace =
        shows app.currentUser showOnlyVisited decoded := by
      rw [shows, shows, Place.visitors_eq_of_withoutImages hsame]
    have hfresh : containsKey (app.heap.alloc newPlace) app.places newPlace.key = false ↔
        app.entry event.key = none := by
      rw [hkey, containsKey_alloc_eq_false_iff h]
    refine ⟨decoded, newPlace, _, requests, hdecoded, rfl, fun showOnlyVisited ↦ ?_,
      fun ref href ↦ ?_⟩
    · rw [Affects, hkind]
      by_cases hnone : app.entry event.key = none
      · rw [if_pos (hfresh.mpr hnone), listing_alloc_append h, hshows]
        simp [hnone]
      · rw [if_neg fun hcontains ↦ hnone (hfresh.mp hcontains), listing_alloc h]
        simp [hnone]
    · refine ⟨fun _ hboth ↦ EventKind.noConfusion hboth.1, fun _ ↦ ?_⟩
      split_ifs
      · exact List.mem_append_left _ href
      · exact href
  | childChanged =>
    simp only [handle, observe, hkind] at hnext
    obtain ⟨newPlace, requests, hdecoded, _, rfl⟩ := exists_of_childChanged hnext
    have hkey : newPlace.key = event.key := (Place.decodes_iff.mp hdecoded).key
    refine ⟨newPlace, newPlace, _, requests, hdecoded, rfl, fun showOnlyVisited ↦ ?_,
      fun ref href ↦ ⟨fun hmem hboth ↦ ?_, fun hnot ↦ ?_⟩⟩
    · rw [listing_replaceEntry_ne_iff h, hkey, Affects, hkind]
    · have hkeys : (app.places.map fun ref ↦
          ((app.heap.alloc newPlace).read ref).key).Nodup := by
        rw [h.map_key_alloc]
        exact h.keys
      rcases mem_replaceEntry hkeys hmem with rfl | ⟨_, hne⟩
      · exact absurd (h.live _ href) (Nat.lt_irrefl _)
      · rw [hread href, Heap.read_alloc_next, hkey] at hne
        exact hne hboth.2
    · refine mem_replaceEntry_of_ne href fun hsame ↦ hnot ⟨rfl, ?_⟩
      rwa [hread href, Heap.read_alloc_next, hkey] at hsame

/-! ### What a step does to the pages -/

/-- An event leaves the pages right exactly if the pages that it affects learn of it. -/
theorem coherent_handle_iff (h : app.WellFormed) (huser : app.currentUser.isSome)
    (hcoherent : app.Coherent) {event : Event} (hnext : app.handle event = some next) :
    next.Coherent ↔ app.Notified (.observe event) := by
  have hstore := h.handle hnext
  obtain ⟨place, newPlace, places, requests, hdecoded, rfl, haffects, hkept⟩ :=
    exists_changed_of_handle h hnext
  have hchanged : WellFormed { app with
      heap := app.heap.alloc newPlace, places := places, requests := requests } :=
    ⟨hstore.live, hstore.keys⟩
  have hlist := list_refresh_iff h huser hcoherent.list hchanged rfl rfl rfl
  have hdetail {page : PageId} {detail : DetailPage} (hpage : app.detailPages page = some detail) :
      detail.detailPlace ∈ app.places ∧ (app.heap.alloc newPlace).read detail.detailPlace =
        app.heap.read detail.detailPlace := by
    have hmem := ((entry_eq_some_iff h).mp (hcoherent.detail page detail hpage).1).1
    exact ⟨hmem, Heap.read_alloc_of_lt _ _ (h.live _ hmem)⟩
  constructor
  · intro hafter other hother
    rw [hdecoded, Option.some.injEq] at hother
    subst hother
    refine ⟨fun page list hpage haffected ↦
      hlist.mp hafter.list page list hpage ((haffects _).mpr haffected),
      fun hchanged page detail hpage hkey ↦ ?_⟩
    obtain ⟨hmem, hread⟩ := hdetail hpage
    have hentry := ((entry_eq_some_iff hstore).mp (hafter.detail page detail hpage).1).1
    exact (hkept _ hmem).mp hentry ⟨hchanged, hkey⟩
  · intro htold
    obtain ⟨htoldLists, htoldDetails⟩ := htold place hdecoded
    refine ⟨hlist.mpr fun page list hpage hne ↦
      htoldLists page list hpage ((haffects _).mp hne), fun page detail hpage ↦ ?_⟩
    obtain ⟨hmem, hread⟩ := hdetail hpage
    have hstrip : detail.strip = (app.heap.read detail.detailPlace).placeImages :=
      (hcoherent.detail page detail hpage).2
    refine ⟨(entry_eq_some_iff hstore).mpr ⟨(hkept _ hmem).mpr fun hboth ↦
      htoldDetails hboth.1 page detail hpage hboth.2, rfl⟩, ?_⟩
    rw [hstrip, heap_refresh, hread]

/-- Image data of one object does not matter to the store and to the listings. -/
theorem WellFormed.withHeap (h : app.WellFormed) {place : Ref} {heap : Heap Place}
    (hsame : SameButImages place app.heap heap) : WellFormed { app with heap } :=
  h.of_key rfl hsame.1 fun ref ↦ Place.key_eq_of_withoutImages (hsame.2.1 ref)

theorem listing_withHeap {place : Ref} {heap : Heap Place}
    (hsame : SameButImages place app.heap heap) (showOnlyVisited : Bool) :
    listing { app with heap } showOnlyVisited = app.listing showOnlyVisited := by
  have hshows (ref : Ref) : shows app.currentUser showOnlyVisited (heap.read ref) =
      shows app.currentUser showOnlyVisited (app.heap.read ref) := by
    rw [shows, shows, Place.visitors_eq_of_withoutImages (hsame.2.1 ref)]
  exact List.filter_congr fun ref _ ↦ hshows ref

theorem entry_withHeap {place : Ref} {heap : Heap Place}
    (hsame : SameButImages place app.heap heap) (ref : Ref) :
    entry { app with heap } (heap.read ref).key = app.entry (app.heap.read ref).key := by
  have hkey (other : Ref) : (heap.read other).key = (app.heap.read other).key :=
    Place.key_eq_of_withoutImages (hsame.2.1 other)
  simp only [entry, hkey]

theorem refresh_refresh (app : App) : app.refresh.refresh = app.refresh :=
  refresh_of_refreshed (rfl : app.refresh.delegate = app.delegate) rfl

theorem exists_of_storeImage {item : Ref} {name : String} {data : Data} {written : Bool}
    (hnext : (app.storeImage item name data written).result = some next) :
    next = app ∨ ∃ documents,
      next = refresh { app.setImage item name data with documents := documents } := by
  unfold storeImage at hnext
  split_ifs at hnext
  · obtain ⟨stored, hstored, hnotify⟩ := Option.bind_eq_some_iff.mp hnext
    refine Or.inr ?_
    rw [eq_refresh_of_notify hnotify]
    rcases cases_of_writeImageDataToFile hstored with rfl | rfl
    · exact ⟨_, refresh_refresh _⟩
    · exact ⟨app.documents, rfl⟩
  · exact Or.inl (Option.some.inj hnext).symm

/-- What the answer to a download does: nothing, or the entry may gain an image, and then all pages
are told. -/
theorem exists_of_finishPlacesData {request : ImageRequest} {answer : Option Data} {written : Bool}
    (hnext : (app.finishPlacesData request answer written).result = some next) :
    next = app ∨ ∃ place heap documents, SameButImages place app.heap heap ∧
      ImagesGrow app.heap heap ∧
      next = reloadData (refresh { app with heap := heap, documents := documents }) := by
  unfold finishPlacesData at hnext
  split at hnext
  · exact Or.inl (Option.some.inj hnext).symm
  · rename_i data
    obtain ⟨stored, hstored, hrest⟩ := Option.bind_eq_some_iff.mp hnext
    obtain ⟨notified, hnotified, hreloaded⟩ := Option.bind_eq_some_iff.mp hrest
    rw [← Option.some.inj hreloaded, eq_refresh_of_notify hnotified]
    have hunchanged : SameButImages request.place app.heap app.heap :=
      ⟨rfl, fun _ ↦ rfl, fun _ _ ↦ rfl⟩
    refine Or.inr ?_
    cases hitem : app.places.find? fun ref ↦
      decide ((app.heap.read ref).key = (app.heap.read request.place).key) with
    | none =>
      rw [hitem] at hstored
      obtain rfl := Option.some.inj hstored
      exact ⟨request.place, app.heap, app.documents, hunchanged, fun _ _ h ↦ h, rfl⟩
    | some item =>
      rw [hitem] at hstored
      rcases exists_of_storeImage hstored with rfl | ⟨documents, rfl⟩
      · exact ⟨request.place, stored.heap, stored.documents, hunchanged, fun _ _ h ↦ h, rfl⟩
      · rw [refresh_refresh]
        exact ⟨item, _, documents, sameButImages_setImage app item request.name data,
          imagesGrow_setImage app item request.name data, rfl⟩

/-- The answer to a download leaves the pages right. -/
theorem Coherent.finishPlacesData (h : app.WellFormed) (huser : app.currentUser.isSome)
    (hcoherent : app.Coherent) {request : ImageRequest} {answer : Option Data} {written : Bool}
    (hnext : (app.finishPlacesData request answer written).result = some next) :
    next.Coherent := by
  rcases exists_of_finishPlacesData hnext with rfl | ⟨place, heap, documents, hsame, _, rfl⟩
  · exact hcoherent
  have hheap : WellFormed { app with heap := heap, documents := documents } :=
    ⟨(h.withHeap hsame).live, (h.withHeap hsame).keys⟩
  have hlist := (list_refresh_iff h huser hcoherent.list hheap rfl rfl rfl).mpr
    fun page list hpage hne ↦ absurd (listing_withHeap hsame _) hne
  refine ⟨fun page list hpage ↦ hlist page list hpage, fun page detail hpage ↦ ?_⟩
  obtain ⟨before, hbefore, rfl⟩ := Option.map_eq_some_iff.mp hpage
  have hcurrent := (hcoherent.detail page before hbefore).1
  exact ⟨(entry_withHeap hsame before.detailPlace).trans hcurrent, rfl⟩

/-! ### Opening a detail page -/

/-- Opening a detail page loads no further image exactly if the documents directory has none. -/
theorem placeImages_prepare_iff {place : Ref} {prepared : App}
    (hprepare : app.prepare place = some prepared) :
    (prepared.heap.read place).placeImages = (app.heap.read place).placeImages ↔
      ∀ name ∈ (app.heap.read place).imageNames, app.documents.lookup name = none ∨
        (app.heap.read place).placeImages.lookup name ≠ none := by
  have himages := (prepared_prepare hprepare).images
  constructor
  · intro hsame name hname
    have hname := (if_pos hname ▸ himages name).symm
    rw [hsame] at hname
    by_cases hmissing : (app.heap.read place).placeImages.lookup name = none
    · rw [hmissing, Option.none_or] at hname
      exact Or.inl hname
    · exact Or.inr hmissing
  · intro hloaded
    refine Finmap.ext_lookup fun name ↦ ?_
    rw [himages]
    split_ifs with hname
    · rcases hloaded name hname with hdata | hpresent
      · rw [hdata, Option.or_none]
      · exact Option.or_of_isSome (Option.isSome_iff_ne_none.mpr hpresent)
    · rfl

/-- Page numbers are not reused. -/
structure PageInvariant (app : App) : Prop where
  store : app.WellFormed
  user : app.currentUser.isSome
  detail : ∀ page, app.detailPages page ≠ none → page < app.nextPage

theorem coherent_openDetail_iff (h : app.PageInvariant) (hcoherent : app.Coherent) {page : PageId}
    {row : ℕ} (hnext : app.openDetail page row = some next) :
    next.Coherent ↔ app.Notified (.openDetail page row) := by
  obtain ⟨list, place, prepared, hlist, hrow, hprepare, rfl⟩ := exists_prepared_of_openDetail hnext
  have hloaded := placeImages_prepare_iff hprepare
  obtain ⟨heap, requests, rfl, hsame⟩ := exists_of_prepare hprepare
  have hentry (ref : Ref) : entry { app with heap } (heap.read ref).key =
      app.entry (app.heap.read ref).key := entry_withHeap hsame ref
  constructor
  · intro hafter list' place' other detail hlist' hrow' hdetail hshown
    rw [hlist, Option.some.injEq] at hlist'
    subst hlist'
    rw [hrow, Option.some.injEq] at hrow'
    subst hrow'
    have hother : other ≠ app.nextPage := Nat.ne_of_lt (h.detail other (by simp [hdetail]))
    have hstrip := (hafter.detail other detail (by
      simp only [Function.update_of_ne hother]
      exact hdetail)).2
    rw [(hcoherent.detail other detail hdetail).2, hshown] at hstrip
    exact hloaded.mp hstrip.symm
  · intro htold
    refine ⟨fun other list hpage ↦ ?_, fun other detail hpage ↦ ?_⟩
    · have hlisted : listed { app with heap } list.showOnlyVisited =
          app.listed list.showOnlyVisited := by
        rw [listed_eq (h.store.withHeap hsame) h.user, listed_eq h.store h.user,
          listing_withHeap hsame]
      exact hlisted.trans (hcoherent.list other list hpage)
    · by_cases hother : other = app.nextPage
      · simp only [hother, Function.update_self, Option.some.injEq] at hpage
        subst hpage
        have hmem : place ∈ app.places := by
          have hplaces := hcoherent.list page list hlist
          rw [listed_eq h.store h.user, Option.some.injEq] at hplaces
          exact mem_listing (hplaces ▸ List.mem_of_getElem? hrow)
        exact ⟨(hentry place).trans ((entry_eq_some_iff h.store).mpr ⟨hmem, rfl⟩), rfl⟩
      · simp only [Function.update_of_ne hother] at hpage
        obtain ⟨hcurrent, hstrip⟩ := hcoherent.detail other detail hpage
        refine ⟨(hentry detail.detailPlace).trans hcurrent, ?_⟩
        rw [hstrip]
        by_cases hshown : detail.detailPlace = place
        · rw [hshown]
          exact (hloaded.mpr (htold list place other detail hlist hrow hpage hshown)).symm
        · exact congrArg Place.placeImages (hsame.2.2 _ hshown).symm

/-! ### Steps and runs -/

/-- A list page is loaded. -/
theorem Coherent.openList (hcoherent : app.Coherent) {showOnlyVisited : Bool}
    (hnext : (app.openList showOnlyVisited).result = some next) : next.Coherent := by
  obtain ⟨places, hplaces, rfl⟩ := exists_of_openList hnext
  refine ⟨fun page list hpage ↦ ?_, hcoherent.detail⟩
  by_cases hnew : page = app.nextPage
  · simp only [hnew, Function.update_self, Option.some.injEq] at hpage
    subst hpage
    exact hplaces
  · simp only [Function.update_of_ne hnew] at hpage
    exact hcoherent.list page list hpage

theorem Coherent.closeList (hcoherent : app.Coherent) (page : PageId) :
    (app.closeList page).Coherent := by
  refine ⟨fun other list hother ↦ ?_, hcoherent.detail⟩
  by_cases hclosed : other = page
  · simp [App.closeList, hclosed] at hother
  · simp only [App.closeList, Function.update_of_ne hclosed] at hother
    exact hcoherent.list other list hother

theorem Coherent.closeDetail (hcoherent : app.Coherent) (page : PageId) :
    (app.closeDetail page).Coherent := by
  refine ⟨hcoherent.list, fun other detail hother ↦ ?_⟩
  by_cases hclosed : other = page
  · simp [App.closeDetail, hclosed] at hother
  · simp only [App.closeDetail, Function.update_of_ne hclosed] at hother
    exact hcoherent.detail other detail hother

/-- A step leaves the pages right exactly if the pages that it affects learn of it. -/
theorem coherent_pageStep_iff (h : app.PageInvariant) (hcoherent : app.Coherent)
    {action : PageAction} (hnext : app.pageStep action = some next) :
    next.Coherent ↔ app.Notified action := by
  cases action with
  | openList => exact iff_of_true (hcoherent.openList hnext) trivial
  | openMyPlaces =>
    refine iff_of_true ?_ trivial
    rcases cases_of_openMyPlaces hnext with hopened | rfl
    · exact hcoherent.openList hopened
    · exact hcoherent
  | closeList page =>
    obtain rfl := Option.some.inj hnext
    exact iff_of_true (hcoherent.closeList page) trivial
  | openDetail page row => exact coherent_openDetail_iff h hcoherent hnext
  | closeDetail page =>
    obtain rfl := Option.some.inj hnext
    exact iff_of_true (hcoherent.closeDetail page) trivial
  | observe event => exact coherent_handle_iff h.store h.user hcoherent hnext
  | finishPlacesData index answer written =>
    obtain ⟨request, _, hanswered⟩ := Option.bind_eq_some_iff.mp hnext
    have hremoved : Coherent { app with requests := app.requests.eraseIdx index } :=
      ⟨hcoherent.list, hcoherent.detail⟩
    have hstore : WellFormed { app with requests := app.requests.eraseIdx index } :=
      ⟨h.store.live, h.store.keys⟩
    exact iff_of_true (hremoved.finishPlacesData hstore h.user hanswered) trivial

theorem PageInvariant.openList (h : app.PageInvariant) {showOnlyVisited : Bool}
    (hnext : (app.openList showOnlyVisited).result = some next) : next.PageInvariant := by
  obtain ⟨places, _, rfl⟩ := exists_of_openList hnext
  exact ⟨⟨h.store.live, h.store.keys⟩, h.user,
    fun page hpage ↦ Nat.lt_succ_of_lt (h.detail page hpage)⟩

theorem PageInvariant.pageStep (h : app.PageInvariant) {action : PageAction}
    (hnext : app.pageStep action = some next) : next.PageInvariant := by
  cases action with
  | openList => exact h.openList hnext
  | openMyPlaces =>
    rcases cases_of_openMyPlaces hnext with hopened | rfl
    · exact h.openList hopened
    · exact h
  | closeList page =>
    obtain rfl := Option.some.inj hnext
    exact ⟨⟨h.store.live, h.store.keys⟩, h.user, h.detail⟩
  | openDetail page row =>
    obtain ⟨list, place, heap, requests, _, _, hsame, _, rfl⟩ := exists_of_openDetail hnext
    have hheap := h.store.withHeap hsame
    refine ⟨⟨hheap.live, hheap.keys⟩, h.user, fun other hother ↦ ?_⟩
    by_cases hnew : other = app.nextPage
    · exact hnew ▸ Nat.lt_succ_self _
    · simp only [Function.update_of_ne hnew] at hother
      exact Nat.lt_succ_of_lt (h.detail other hother)
  | closeDetail page =>
    obtain rfl := Option.some.inj hnext
    refine ⟨⟨h.store.live, h.store.keys⟩, h.user, fun other hother ↦ ?_⟩
    by_cases hclosed : other = page
    · simp [App.closeDetail, hclosed] at hother
    · simp only [App.closeDetail, Function.update_of_ne hclosed] at hother
      exact h.detail other hother
  | observe event =>
    have hstore := h.store.handle hnext
    obtain ⟨_, _, _, _, _, rfl, _, _⟩ := exists_changed_of_handle h.store hnext
    exact ⟨hstore, h.user, h.detail⟩
  | finishPlacesData index answer written =>
    obtain ⟨request, _, hanswered⟩ := Option.bind_eq_some_iff.mp hnext
    rcases exists_of_finishPlacesData hanswered with rfl | ⟨place, heap, documents, hsame, _, rfl⟩
    · exact ⟨⟨h.store.live, h.store.keys⟩, h.user, h.detail⟩
    · have hheap := h.store.withHeap hsame
      refine ⟨⟨hheap.live, hheap.keys⟩, h.user, fun page hpage ↦ h.detail page fun hnone ↦ hpage ?_⟩
      have hclosed : app.detailPages page = none := hnone
      simp [reloadData, refresh, hclosed]

section Launch

variable (uid : String) (documents : Dictionary String Data) (directories : String → Bool)

theorem pageInvariant_launched :
    (launched (some uid) documents directories).PageInvariant where
  store := ⟨fun _ href ↦ (List.not_mem_nil href).elim, List.nodup_nil⟩
  user := rfl
  detail := fun _ hpage ↦ absurd rfl hpage

theorem coherent_launched :
    (launched (some uid) documents directories).Coherent where
  list := fun _ _ hlist ↦ by cases hlist
  detail := fun _ _ hdetail ↦ by cases hdetail

end Launch

/-- Open pages show the current store in every state of a run exactly if the pages that a step
affects learn of it in every step. -/
theorem coherent_iff {uid : String} {documents : Dictionary String Data}
    {directories : String → Bool} {actions : List PageAction} {final : App}
    (hrun :
      PartialRun.run pageStep (launched (some uid) documents directories) actions = some final) :
    PartialRun.Throughout pageStep Coherent (launched (some uid) documents directories) actions ↔
      PartialRun.Guarded pageStep Notified (launched (some uid) documents directories) actions :=
  PartialRun.throughout_iff_guarded (fun _ _ _ h _ hstep ↦ PageInvariant.pageStep h hstep)
    (fun _ _ _ h hcoherent hstep ↦ coherent_pageStep_iff h hcoherent hstep)
    (pageInvariant_launched uid documents directories)
    (coherent_launched uid documents directories) hrun

/-- An event with the record of a place. -/
def sampleEvent (kind : EventKind) (place : Place) : Event :=
  ⟨kind, place.key, (Record.absent.updateChildValues (Place.dictionaryFromPlace place)).snapshot⟩

theorem coherent_iff_sample :
    ∃ final, PartialRun.run pageStep (launched (some "ana") ∅ sampleDirectories)
        [.openList, .observe (sampleEvent .childAdded samplePlace)] = some final ∧
      final.listPages 0 = some ⟨false, [0]⟩ ∧
      PartialRun.Throughout pageStep Coherent (launched (some "ana") ∅ sampleDirectories)
        [.openList, .observe (sampleEvent .childAdded samplePlace)] := by
  have hruns : (PartialRun.run pageStep (launched (some "ana") ∅ sampleDirectories)
      [.openList, .observe (sampleEvent .childAdded samplePlace)]).map (fun final ↦
      decide (final.listPages 0 = some ⟨false, [0]⟩)) = some true := by
    decide +kernel
  obtain ⟨final, hrun, hlist⟩ := Option.map_eq_some_iff.mp hruns
  refine ⟨final, hrun, of_decide_eq_true hlist, (coherent_iff hrun).mpr ⟨trivial, ?_⟩⟩
  refine PartialRun.guarded_cons_of_forall_mem (fun place _ ↦ ⟨fun page list hpage _ ↦ ?_,
    fun hchanged ↦ by cases hchanged⟩) (fun _ hnone ↦ (List.not_mem_nil hnone).elim)
  by_contra hother
  have hfirst : page ≠ 0 := fun hzero ↦ hother (hzero ▸ rfl)
  have hclosed : Function.update (fun _ ↦ none) 0 (some ⟨false, []⟩) page = some list := hpage
  rw [Function.update_of_ne hfirst] at hclosed
  cases hclosed

/-- The page of the visited places takes over the delegate; once it is closed, the main list does
not learn of a further place. And a detail page does not learn of a change of its place. -/
theorem coherent_counterexample :
    (∃ final, PartialRun.run pageStep (launched (some "ana") ∅ sampleDirectories)
        [.openList,
          .observe (sampleEvent .childAdded { samplePlace with visitors := ["ana"], visits := 1 }),
          .openMyPlaces, .closeList 1,
          .observe (sampleEvent .childAdded { samplePlace with key := "rila" })] = some final ∧
      final.listPages 0 = some ⟨false, [0]⟩ ∧ final.places = [0, 1] ∧ ¬ final.Coherent) ∧
    ∃ final, PartialRun.run pageStep (launched (some "ana") ∅ sampleDirectories)
        [.openList, .observe (sampleEvent .childAdded samplePlace), .openDetail 0 0,
          .observe (sampleEvent .childChanged
            { samplePlace with visitors := ["boris"], visits := 1 })] = some final ∧
      (final.detailPages 1).map (fun detail ↦ (final.heap.read detail.detailPlace).visitors) =
        some [] ∧
      (final.entry "boyana").map (fun ref ↦ (final.heap.read ref).visitors) = some ["boris"] ∧
      ¬ final.Coherent := by
  refine ⟨?_, ?_⟩
  · have hruns : (PartialRun.run pageStep (launched (some "ana") ∅ sampleDirectories)
        [.openList,
          .observe (sampleEvent .childAdded { samplePlace with visitors := ["ana"], visits := 1 }),
          .openMyPlaces, .closeList 1,
          .observe (sampleEvent .childAdded { samplePlace with key := "rila" })]).map (fun final ↦
        decide (final.listPages 0 = some ⟨false, [0]⟩ ∧ final.places = [0, 1])) = some true := by
      decide +kernel
    obtain ⟨final, hrun, hfinal⟩ := Option.map_eq_some_iff.mp hruns
    obtain ⟨hlist, hplaces⟩ := of_decide_eq_true hfinal
    refine ⟨final, hrun, hlist, hplaces, fun h ↦ ?_⟩
    have hlisted : some final.places = some [0] := h.list 0 _ hlist
    rw [hplaces] at hlisted
    cases hlisted
  · have hruns : (PartialRun.run pageStep (launched (some "ana") ∅ sampleDirectories)
        [.openList, .observe (sampleEvent .childAdded samplePlace), .openDetail 0 0,
          .observe (sampleEvent .childChanged
            { samplePlace with visitors := ["boris"], visits := 1 })]).map (fun final ↦
        decide ((final.detailPages 1).map
            (fun detail ↦ (final.heap.read detail.detailPlace).visitors) = some [] ∧
          (final.entry "boyana").map (fun ref ↦ (final.heap.read ref).visitors) =
            some ["boris"] ∧
          (final.detailPages 1).map (fun detail ↦ (final.heap.read detail.detailPlace).key) =
            some "boyana")) = some true := by
      decide +kernel
    obtain ⟨final, hrun, hfinal⟩ := Option.map_eq_some_iff.mp hruns
    obtain ⟨hshown, hentry, hkey⟩ := of_decide_eq_true hfinal
    refine ⟨final, hrun, hshown, hentry, fun h ↦ ?_⟩
    obtain ⟨detail, hdetail, hvisitors⟩ := Option.map_eq_some_iff.mp hshown
    rw [hdetail, Option.map_some, Option.some.injEq] at hkey
    have hcurrent := (h.detail 1 detail hdetail).1
    rw [hkey] at hcurrent
    rw [hcurrent, Option.map_some, Option.some.injEq, hvisitors] at hentry
    cases hentry

end App

end BeenHere
