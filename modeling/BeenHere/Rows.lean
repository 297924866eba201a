import BeenHere.Runtime

/-!
# The records that the app can handle

The decoder accepts a record without images. Everything that is done with the place afterwards takes
the first image name for granted: the observer of `childAdded` casts the array and takes its first
element, `getDataForImageName` forces the first name, and `cellForRowAt` indexes the names. The
decoder accepts any image names, too, but the observer of `childAdded` looks for a file of the first
name, and `prepare` for files of all names, and both trap on a name that leads to a directory. So a
record is handled, its first image is downloaded, and its row is rendered and opened, exactly if the
record has an image, none of the names that are looked for leads to a directory, and nobody needs to
be signed in for the delegate or somebody is (`handled_iff`).
-/

set_option autoImplicit false
set_option relaxedAutoImplicit false

namespace BeenHere

open Firebase ObjectHeap Traced

/-- A `PlaceTableViewCell`. -/
structure PlaceCell where
  placeName : Option String
  rating : ℚ
  image : Option Data
  downloading : Bool
  deriving DecidableEq

namespace App

/-- `tableView(_:cellForRowAt:)` for a dequeued cell, which keeps the image that it showed before if
the first image of the place is not loaded. -/
def cellForRowAt (app : App) (list : ListPage) (cell : PlaceCell) (row : ℕ) : Option PlaceCell := do
  let ref ← list.places[row]?
  let place := app.heap.read ref
  let firstImage ← place.imageNames[0]?
  let named := { cell with placeName := some place.placeName, rating := place.rating }
  return match place.placeImages.lookup firstImage with
    | some placeData => { named with downloading := false, image := some placeData }
    | none => named

/-- The observer runs, the answer to the download of the first image is processed whatever it is,
every row of an open list page that shows the place is rendered and opened, and so is every row of
the entry of the store on a page that is loaded later. -/
structure HandledBy (app : App) (event : Event) (next : App) : Prop where
  observed : app.handle event = some next
  answered : ∀ index request answer written, next.requests[index]? = some request →
    request.place = app.heap.next → request.source = .firstImage →
    (next.runtimeStep (.finishFirstImage index answer written)).isSome
  rows : ∀ page list row ref, next.listPages page = some list → list.places[row]? = some ref →
    (next.heap.read ref).key = event.key →
    (∀ cell, (next.cellForRowAt list cell row).isSome) ∧ (next.openDetail page row).isSome
  entry : ∀ ref, next.entry event.key = some ref →
    (∀ list row cell, list.places[row]? = some ref → (next.cellForRowAt list cell row).isSome) ∧
      (next.prepare ref).isSome

def Handled (app : App) (event : Event) : Prop := ∃ next, app.HandledBy event next

/-- No image name of a place leads to a directory. -/
def NamesFiles (app : App) (place : Place) : Prop :=
  ∀ name ∈ place.imageNames, app.directories name = false

/-- What the store has for the key of a decoded event afterwards: an addition leaves an entry that
is there. -/
def entryAfter (app : App) (event : Event) (place : Place) : Place :=
  match event.kind with
  | .childAdded => (app.entry event.key).elim place app.heap.read
  | .childChanged => place

/-- What it takes to handle a decoded event. A list page that is not the delegate shows what it has
shown before. -/
structure CanHandle (app : App) (event : Event) (place : Place) : Prop where
  images : place.imageNames ≠ []
  user : app.ShowsVisited → app.currentUser.isSome
  first : event.kind = .childAdded → ∀ name, place.imageNames.head? = some name →
    app.directories name = false
  entry : app.NamesFiles (app.entryAfter event place)
  rows : ∀ page list, app.delegate ≠ some page → app.listPages page = some list →
    ∀ ref ∈ list.places, (app.heap.read ref).key = event.key → app.NamesFiles (app.heap.read ref)

variable {app next : App}

/-- A row of an object with an image is rendered. -/
theorem isSome_cellForRowAt {list : ListPage} {row : ℕ} {ref : Ref}
    (hrow : list.places[row]? = some ref) (himages : (app.heap.read ref).imageNames ≠ [])
    (cell : PlaceCell) : (app.cellForRowAt list cell row).isSome := by
  obtain ⟨name, rest, hnames⟩ := List.exists_cons_of_ne_nil himages
  simp only [cellForRowAt, Option.bind_eq_bind, hrow, Option.bind_some, hnames,
    List.getElem?_cons_zero]
  rfl

/-- A row is opened exactly if no image name of its object leads to a directory. -/
theorem isSome_openDetail_iff {page : PageId} {list : ListPage} {row : ℕ} {ref : Ref}
    (hlist : app.listPages page = some list) (hrow : list.places[row]? = some ref) :
    (app.openDetail page row).isSome ↔ app.NamesFiles (app.heap.read ref) := by
  rw [NamesFiles, ← isSome_prepare_iff]
  simp only [openDetail, Option.bind_eq_bind, hlist, hrow, Option.bind_some]
  cases app.prepare ref <;> simp

/-- The answer to the download of a first image is processed if nobody needs to be signed in for the
delegate or somebody is. -/
theorem isSome_finishFirstImage (hauth : app.ShowsVisited → app.currentUser.isSome)
    (request : ImageRequest) (answer : Option Data) (written : Bool) :
    (app.finishFirstImage request answer written).result.isSome := by
  unfold finishFirstImage
  split
  · rfl
  · unfold writeImageDataToFile
    split_ifs
    · exact isSome_notify_iff.mpr fun hshows ↦ Or.inl (hauth hshows)
    · rfl
    · rfl

/-- An event leaves the user and the delegate as they are. -/
theorem frame_of_handle (h : app.WellFormed) {event : Event}
    (hnext : app.handle event = some next) :
    next.currentUser = app.currentUser ∧ (next.ShowsVisited ↔ app.ShowsVisited) := by
  obtain ⟨_, newPlace, places, requests, _, rfl, _, _⟩ := exists_changed_of_handle h hnext
  exact ⟨rfl, showsVisited_refresh⟩

section Event

variable {event : Event} {decoded newPlace : Place}

theorem namesFiles_congr {place other : Place} (hdirectories : next.directories = app.directories)
    (hnames : place.imageNames = other.imageNames) :
    next.NamesFiles place ↔ app.NamesFiles other := by
  rw [NamesFiles, NamesFiles, hdirectories, hnames]

/-- Assumes: a change comes only for a key that is in the store. After an event the store has an
entry for its key. -/
theorem exists_entry_of_observed (h : app.WellFormed)
    (hobserved : Observed event decoded newPlace app next)
    (hadded : event.kind = .childChanged → (app.entry event.key).isSome) :
    ∃ ref, next.entry event.key = some ref ∧
      (next.heap.read ref).imageNames = (app.entryAfter event decoded).imageNames := by
  have hnew : (next.heap.read app.heap.next).imageNames = decoded.imageNames := by
    rw [hobserved.heap, Heap.read_alloc_next]
    exact Place.imageNames_eq_of_withoutImages hobserved.fresh
  cases hkind : event.kind with
  | childChanged =>
    refine ⟨_, hobserved.replaced hkind (hadded hkind), ?_⟩
    rw [hnew, entryAfter, hkind]
  | childAdded =>
    cases hentry : app.entry event.key with
    | none =>
      refine ⟨_, hobserved.added hkind hentry, ?_⟩
      rw [hnew, entryAfter, hkind, hentry]
      rfl
    | some ref =>
      have hunchanged : ¬ (event.kind = .childChanged ∧ event.key = event.key) := by
        rw [hkind]
        exact fun hboth ↦ EventKind.noConfusion hboth.1
      refine ⟨ref, hobserved.kept _ ref hentry hunchanged, ?_⟩
      rw [hobserved.heap,
        Heap.read_alloc_of_lt _ _ (h.live ref ((entry_eq_some_iff h).mp hentry).1), entryAfter,
        hkind, hentry]
      rfl

/-- What is handled meets the condition. -/
theorem CanHandle.of_handledBy (h : app.Displayed)
    (hdecoded : Place.placeFromDictionary event.child event.key = some decoded)
    (hadded : event.kind = .childChanged → (app.entry event.key).isSome)
    (hhandled : app.HandledBy event next) : app.CanHandle event decoded := by
  obtain ⟨⟨other, hother, himages⟩, hcomplete, _, hauth⟩ :=
    isSome_handle_iff.mp (Option.isSome_of_eq_some hhandled.observed)
  obtain rfl := Option.some.inj (hdecoded.symm.trans hother)
  obtain ⟨place, newPlace, hobserved⟩ := observed_of_handle h.store hhandled.observed
  obtain rfl := Option.some.inj (hdecoded.symm.trans hobserved.decodes)
  refine ⟨himages, hauth, fun hkind name hname ↦ ?_, ?_,
    fun page list hpage hlist ref href hkey ↦ ?_⟩
  · obtain ⟨place, first, hplace, hfirst, hfile⟩ := hcomplete hkind
    obtain rfl := Option.some.inj (hdecoded.symm.trans hplace)
    rwa [Option.some.inj (hname.symm.trans hfirst)]
  · obtain ⟨ref, hentry, hnames⟩ := exists_entry_of_observed h.store hobserved hadded
    exact (namesFiles_congr hobserved.directories hnames).mp
      (isSome_prepare_iff.mp (hhandled.entry ref hentry).2)
  · obtain ⟨row, hrow⟩ := List.mem_iff_getElem?.mp href
    have hread : next.heap.read ref = app.heap.read ref := by
      rw [hobserved.heap, Heap.read_alloc_of_lt _ _ (h.rows page list hlist ref href).1]
    have hshown := (hobserved.otherPages page hpage).trans hlist
    have hopened := (hhandled.rows page list row ref hshown hrow (hread ▸ hkey)).2
    rw [isSome_openDetail_iff hshown hrow, hread] at hopened
    exact (namesFiles_congr hobserved.directories rfl).mp hopened

/-- The objects that the list pages show for the key of an event name files. -/
theorem CanHandle.namesFiles (hcan : app.CanHandle event decoded) (h : app.Displayed)
    (hobserved : Observed event decoded newPlace app next) (hstore : next.WellFormed)
    (hadded : event.kind = .childChanged → (app.entry event.key).isSome) {ref : Ref}
    (hkey : (next.heap.read ref).key = event.key)
    (hshown : ref ∈ next.places ∨ ∃ page list, next.listPages page = some list ∧
      ref ∈ list.places) : next.NamesFiles (next.heap.read ref) := by
  have hentry (hmem : ref ∈ next.places) : next.NamesFiles (next.heap.read ref) := by
    obtain ⟨other, hother, hnames⟩ := exists_entry_of_observed h.store hobserved hadded
    obtain rfl := Option.some.inj
      (((entry_eq_some_iff hstore).mpr ⟨hmem, hkey⟩).symm.trans hother)
    exact (namesFiles_congr hobserved.directories hnames).mpr hcan.entry
  rcases hshown with hmem | ⟨page, list, hlist, href⟩
  · exact hentry hmem
  · by_cases hpage : app.delegate = some page
    · exact hentry (hobserved.delegatePage page list hpage hlist ref href)
    · rw [hobserved.otherPages page hpage] at hlist
      have hread : next.heap.read ref = app.heap.read ref := by
        rw [hobserved.heap, Heap.read_alloc_of_lt _ _ (h.rows page list hlist ref href).1]
      rw [hread] at hkey ⊢
      exact (namesFiles_congr hobserved.directories rfl).mpr
        (hcan.rows page list hpage hlist ref href hkey)

/-- What meets the condition is handled. -/
theorem CanHandle.handled (hcan : app.CanHandle event decoded) (h : app.Displayed)
    (hdecoded : Place.placeFromDictionary event.child event.key = some decoded)
    (hadded : event.kind = .childChanged → (app.entry event.key).isSome) : app.Handled event := by
  have hstore (hchanged : event.kind = .childChanged) : app.places ≠ [] := by
    obtain ⟨ref, hentry⟩ := Option.isSome_iff_exists.mp (hadded hchanged)
    exact List.ne_nil_of_mem ((entry_eq_some_iff h.store).mp hentry).1
  have hcomplete (hkind : event.kind = .childAdded) :
      Complete app.directories event.key event.child := by
    obtain ⟨name, hname⟩ := Option.isSome_iff_exists.mp (List.isSome_head?.mpr hcan.images)
    exact ⟨decoded, name, hdecoded, hname, hcan.first hkind name hname⟩
  obtain ⟨next, hnext⟩ := Option.isSome_iff_exists.mp
    (isSome_handle_iff.mpr ⟨⟨decoded, hdecoded, hcan.images⟩, hcomplete, hstore, hcan.user⟩)
  obtain ⟨huser, hshows⟩ := frame_of_handle h.store hnext
  obtain ⟨place, newPlace, hobserved⟩ := observed_of_handle h.store hnext
  obtain rfl := Option.some.inj (hdecoded.symm.trans hobserved.decodes)
  have hafter : next.Displayed := by
    have hstep : app.runtimeStep (.page (.observe event)) = some next := hnext
    exact h.runtimeStep hstep
  refine ⟨next, hnext, fun index request answer written hrequest _ hsource ↦ ?_,
    fun page list row ref hlist hrow hkey ↦ ?_, fun ref hentry ↦ ?_⟩
  · have hauth : ({ next with requests := next.requests.eraseIdx index } : App).ShowsVisited →
        next.currentUser.isSome :=
      fun hvisited ↦ by rw [huser]; exact hcan.user (hshows.mp hvisited)
    obtain ⟨done, hdone⟩ := Option.isSome_iff_exists.mp
      (isSome_finishFirstImage hauth request answer written)
    refine Option.isSome_of_eq_some (Option.bind_eq_some_iff.mpr ⟨request, ?_, hdone⟩)
    exact requestAt_eq_some_iff.mpr ⟨hrequest, hsource⟩
  · have href := List.mem_of_getElem? hrow
    exact ⟨isSome_cellForRowAt hrow (hafter.rows page list hlist ref href).2,
      (isSome_openDetail_iff hlist hrow).mpr (hcan.namesFiles h hobserved hafter.store hadded hkey
        (Or.inr ⟨page, list, hlist, href⟩))⟩
  · obtain ⟨hmem, hkey⟩ := (entry_eq_some_iff hafter.store).mp hentry
    exact ⟨fun list row cell hrow ↦ isSome_cellForRowAt hrow (hafter.entries ref hmem) cell,
      isSome_prepare_iff.mpr (hcan.namesFiles h hobserved hafter.store hadded hkey (Or.inl hmem))⟩

end Event

/-- Assumes: a run from launch, and an event with a record that is decoded; a change comes only for
a key that is in the store. The record is handled exactly if it has an image, a user is signed in in
case the delegate is a page of the visited places, and no directory is looked for: the first image
name of an addition does not lead to one, nor does any image name of the entry that the store then
has for the key, or of an object that another list page shows for it. -/
theorem handled_iff {currentUser : Option String} {documents : Dictionary String Data}
    {directories : String → Bool} {actions : List RuntimeAction}
    (hrun : PartialRun.run runtimeStep (launched currentUser documents directories) actions =
      some app)
    {event : Event} {place : Place}
    (hdecoded : Place.placeFromDictionary event.child event.key = some place)
    (hadded : event.kind = .childChanged → (app.entry event.key).isSome) :
    app.Handled event ↔ app.CanHandle event place :=
  ⟨fun ⟨_, hhandled⟩ ↦ CanHandle.of_handledBy (displayed_of_run hrun) hdecoded hadded hhandled,
    fun hcan ↦ hcan.handled (displayed_of_run hrun) hdecoded hadded⟩

/-- Nobody is signed in, and a list page shows `samplePlace`. -/
def listedActions : List RuntimeAction :=
  [.page .openList, .page (.observe (sampleEvent .childAdded samplePlace))]

/-- A record with an image, as an addition and then as a change. -/
theorem handled_iff_sample : ∃ app,
    PartialRun.run runtimeStep (launched none ∅ sampleDirectories) listedActions = some app ∧
    app.Handled (sampleEvent .childChanged samplePlace) := by
  have hdecoded : Place.placeFromDictionary (sampleEvent .childChanged samplePlace).child
      (sampleEvent .childChanged samplePlace).key = some samplePlace := by decide +kernel
  have hruns : (PartialRun.run runtimeStep (launched none ∅ sampleDirectories) listedActions).map
      (fun app ↦ decide ((app.entry (sampleEvent .childChanged samplePlace).key).isSome ∧
        app.delegate = some 0 ∧ app.listPages 0 = some ⟨false, [0]⟩ ∧
        ∀ name ∈ samplePlace.imageNames, app.directories name = false)) = some true := by
    decide +kernel
  obtain ⟨app, hrun, hfacts⟩ := Option.map_eq_some_iff.mp hruns
  obtain ⟨hentry, hdelegate, hlist, hfiles⟩ := of_decide_eq_true hfacts
  refine ⟨app, hrun, (handled_iff hrun hdecoded fun _ ↦ hentry).mpr
    ⟨by decide, ?_, fun hadded ↦ EventKind.noConfusion hadded, hfiles, ?_⟩⟩
  · rintro ⟨page, list, hpage, hshown, hvisited⟩
    obtain rfl := Option.some.inj (hdelegate.symm.trans hpage)
    rw [← Option.some.inj (hlist.symm.trans hshown)] at hvisited
    cases hvisited
  · -- no other list page has been loaded
    obtain ⟨opened, hopened, hrest⟩ := Option.bind_eq_some_iff.mp hrun
    obtain ⟨places, hplaces, rfl⟩ := exists_of_openList hopened
    obtain ⟨last, hhandled, hlast⟩ := Option.bind_eq_some_iff.mp hrest
    obtain rfl := Option.some.inj hlast
    have hwell : WellFormed { launched none ∅ sampleDirectories with
        listPages := Function.update (fun _ ↦ none) 0 (some ⟨false, places⟩)
        delegate := some 0
        nextPage := 1 } := ⟨fun _ href ↦ (List.not_mem_nil href).elim, List.nodup_nil⟩
    obtain ⟨_, _, hobserved⟩ := observed_of_handle hwell hhandled
    intro page list hpage hshown
    rw [hdelegate] at hpage
    have hother : page ≠ 0 := fun hsame ↦ hpage (congrArg some hsame.symm)
    simp [hobserved.otherPages page hpage, hother] at hshown

/-- A place with some images. -/
def imagesPlace (imageNames : List String) : Place := { samplePlace with imageNames }

/-- The record of a place without images is decoded, and so is that of a place whose image name is
empty. As an addition each of them traps. As a change the first one traps, and the second one does
when its page is opened. -/
theorem handled_counterexample : ∃ app,
    PartialRun.run runtimeStep (launched none ∅ sampleDirectories) listedActions = some app ∧
    (app.entry "boyana").isSome ∧
    ∀ imageNames ∈ [[], [""]], ∀ kind ∈ [EventKind.childAdded, EventKind.childChanged],
      Place.placeFromDictionary (sampleEvent kind (imagesPlace imageNames)).child "boyana" =
        some (imagesPlace imageNames) ∧
      ¬ app.Handled (sampleEvent kind (imagesPlace imageNames)) := by
  have hruns : (PartialRun.run runtimeStep (launched none ∅ sampleDirectories) listedActions).map
      (fun app ↦ decide ((app.entry "boyana").isSome ∧
        ∀ imageNames ∈ [[], [""]], ∀ kind ∈ [EventKind.childAdded, EventKind.childChanged],
          (app.handle (sampleEvent kind (imagesPlace imageNames))).all fun next ↦
            (next.entry "boyana").any fun ref ↦ (next.prepare ref).isNone)) = some true := by
    decide +kernel
  obtain ⟨app, hrun, hfacts⟩ := Option.map_eq_some_iff.mp hruns
  obtain ⟨hentry, htraps⟩ := of_decide_eq_true hfacts
  refine ⟨app, hrun, hentry, fun imageNames hnames kind hkind ↦ ⟨?_, ?_⟩⟩
  · revert imageNames kind
    decide +kernel
  · rintro ⟨next, hhandled⟩
    have hopens := htraps imageNames hnames kind hkind
    rw [hhandled.observed, Option.all_some, Option.any_eq_true] at hopens
    obtain ⟨ref, hafter, hnone⟩ := hopens
    have hprepared := (hhandled.entry ref hafter).2
    rw [Option.isNone_iff_eq_none.mp hnone] at hprepared
    cases hprepared

end App

end BeenHere
