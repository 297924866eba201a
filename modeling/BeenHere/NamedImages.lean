import BeenHere.Library.PartialRun
import BeenHere.Runtime

/-!
# Images that a place does not name

A request for an image is made for one object, under a name that the place of the object has. The
answer to `getDataForImageName` goes to that object. The answer to `getPlacesDataForPlace` goes to
the entry that the store has for the key by then, which a change may have replaced by an object with
other image names. The entry then holds an image that its place does not name, and the strip, which
counts the names and shows the images, shows it in the place of another. Every object holds images
of its own names throughout a run exactly when every such answer comes for a name that the entry has
(`holdsNamed_iff`).
-/

set_option autoImplicit false
set_option relaxedAutoImplicit false

namespace BeenHere

open Firebase ObjectHeap Traced

namespace App

/-- Every image that an object holds has a name of its place. -/
def HoldsNamed (app : App) : Prop :=
  ∀ ref name, (app.heap.read ref).placeImages.lookup name ≠ none →
    name ∈ (app.heap.read ref).imageNames

/-- Every request is for an image that the place of its object names. -/
def RequestsNamed (app : App) : Prop :=
  ∀ request ∈ app.requests, request.place < app.heap.next ∧
    request.name ∈ (app.heap.read request.place).imageNames

/-- An answer to `getPlacesDataForPlace` with data comes for a name that the entry of its place
has. -/
def AnswersNamed (app : App) : RuntimeAction → Prop
  | .page (.finishPlacesData index (some _) _) => ∀ request ∈ app.requests[index]?,
      ∀ item ∈ app.entry (app.heap.read request.place).key,
        request.name ∈ (app.heap.read item).imageNames
  | _ => True

instance (app : App) : DecidablePred app.AnswersNamed
  | .page (.finishPlacesData index (some _) _) =>
    inferInstanceAs (Decidable (∀ request ∈ app.requests[index]?,
      ∀ item ∈ app.entry (app.heap.read request.place).key,
        request.name ∈ (app.heap.read item).imageNames))
  | .page (.finishPlacesData _ none _) | .signIn _ | .signOut | .finishFirstImage _ _ _
  | .page .openList | .page .openMyPlaces | .page (.closeList _) | .page (.openDetail _ _)
  | .page (.closeDetail _) | .page (.observe _) => inferInstanceAs (Decidable True)

variable {app next : App}

/-! ### Requests -/

/-- Assumes: objects that keep what describes them, and requests that were made before. -/
theorem RequestsNamed.of_read (h : app.RequestsNamed) (hnext : next.heap.next = app.heap.next)
    (hread : ∀ ref, (next.heap.read ref).withoutImages = (app.heap.read ref).withoutImages)
    (hrequests : ∀ request ∈ next.requests, request ∈ app.requests) : next.RequestsNamed := by
  intro request hrequest
  obtain ⟨hlive, hname⟩ := h request (hrequests request hrequest)
  rw [hnext, Place.imageNames_eq_of_withoutImages (hread request.place)]
  exact ⟨hlive, hname⟩

/-- An object that is allocated has no requests. -/
theorem RequestsNamed.alloc (h : app.RequestsNamed) (place : Place) :
    RequestsNamed { app with heap := app.heap.alloc place } := by
  intro request hrequest
  obtain ⟨hlive, hname⟩ := h request hrequest
  rw [Heap.read_alloc_of_lt _ _ hlive]
  exact ⟨Nat.lt_succ_of_lt hlive, hname⟩

/-- Assumes: further requests for names of an object. -/
theorem RequestsNamed.append (h : app.RequestsNamed) {place : Ref} (hlive : place < app.heap.next)
    {names : List String} (hnames : ∀ name ∈ names, name ∈ (app.heap.read place).imageNames)
    (source : RequestSource) :
    RequestsNamed { app with
      requests := app.requests ++ names.map fun name ↦ ⟨place, name, source⟩ } := by
  intro request hrequest
  rcases List.mem_append.mp hrequest with hold | hnew
  · exact h request hold
  · obtain ⟨name, hname, rfl⟩ := List.mem_map.mp hnew
    exact ⟨hlive, hnames name hname⟩

/-! ### What keeps the names -/

/-- Every image and every request has a name of its place. -/
structure Named (app : App) : Prop where
  objects : app.HoldsNamed
  requests : app.RequestsNamed

section Parts

variable (h : app.Named)

include h

theorem Named.of_frame (hheap : next.heap = app.heap)
    (hrequests : ∀ request ∈ next.requests, request ∈ app.requests) : next.Named :=
  ⟨by rw [HoldsNamed, hheap]; exact h.objects,
    h.requests.of_read (by rw [hheap]) (fun _ ↦ by rw [hheap]) hrequests⟩

theorem Named.notify (hnext : app.notify.result = some next) : next.Named := by
  rw [eq_refresh_of_notify hnext]
  exact h.of_frame rfl fun _ hrequest ↦ hrequest

theorem Named.setImage {place : Ref} {name : String}
    (hname : name ∈ (app.heap.read place).imageNames) (data : Data) :
    (app.setImage place name data).Named := by
  refine ⟨fun ref other hloaded ↦ ?_,
    h.requests.of_read rfl (sameButImages_setImage app place name data).2.1 fun _ hrequest ↦
      hrequest⟩
  by_cases href : ref = place
  · rw [href, App.setImage, Heap.read_write_self] at hloaded ⊢
    by_cases hother : other = name
    · rw [hother]
      exact hname
    · rw [Finmap.lookup_insert_of_ne _ hother] at hloaded
      exact h.objects place other hloaded
  · rw [App.setImage, Heap.read_write_of_ne _ _ href] at hloaded ⊢
    exact h.objects ref other hloaded

theorem Named.writeImageDataToFile {name : String} {data : Data} {written : Bool}
    (hnext : (app.writeImageDataToFile name data written).result = some next) : next.Named := by
  rcases cases_of_writeImageDataToFile hnext with rfl | rfl
  · exact h.of_frame rfl fun _ hrequest ↦ hrequest
  · exact h

theorem Named.alloc {place : Place} (hplace : place.placeImages = ∅) :
    Named { app with heap := app.heap.alloc place } := by
  refine ⟨app.heap.forall_read_alloc place (fun object ↦ ∀ name,
    object.placeImages.lookup name ≠ none → name ∈ object.imageNames) (fun name hloaded ↦ ?_)
    h.objects, h.requests.alloc place⟩
  rw [hplace, Finmap.lookup_empty] at hloaded
  exact absurd rfl hloaded

theorem Named.downloadImageFromStorage {place : Ref} (hlive : place < app.heap.next)
    (hnext : (app.downloadImageFromStorage place).result = some next) : next.Named := by
  obtain ⟨name, hname, hnotify⟩ := Option.bind_eq_some_iff.mp hnext
  have hrequested : Named { app with
      requests := app.requests ++ [name].map fun name ↦ ⟨place, name, .firstImage⟩ } := by
    refine ⟨h.objects, h.requests.append hlive (fun other hother ↦ ?_) .firstImage⟩
    rw [List.mem_singleton.mp hother]
    exact List.mem_of_mem_head? hname
  exact hrequested.notify hnotify

theorem Named.loadFirstImage {place : Ref} (hlive : place < app.heap.next) {name : String}
    (hname : name ∈ (app.heap.read place).imageNames)
    (hnext : (app.loadFirstImage place name).result = some next) : next.Named := by
  rcases (cases_of_loadFirstImage hnext).2 with ⟨data, _, rfl⟩ | ⟨_, hrequested⟩
  · exact h.setImage hname data
  · exact h.downloadImageFromStorage hlive hrequested

theorem Named.handle {event : Event} (hnext : app.handle event = some next) : next.Named := by
  have hfresh {newPlace : Place}
      (hdecoded : Place.placeFromDictionary event.child event.key = some newPlace) :
      Named { app with heap := app.heap.alloc newPlace } :=
    h.alloc (Place.decodes_iff.mp hdecoded).placeImages
  unfold App.handle App.observe at hnext
  split at hnext
  · obtain ⟨images, newPlace, name, loaded, himages, hdecoded, hname, hloaded, hnotify⟩ :=
      childAdded_eq_some_iff.mp hnext
    have hhead := (asStringArray_images hdecoded).mp ⟨images, himages, hname⟩
    have hloadedNamed := (hfresh hdecoded).loadFirstImage (Nat.lt_succ_self _)
      (by simpa using List.mem_of_mem_head? hhead) hloaded
    have hinserted : (loaded.insertPlace app.heap.next).Named :=
      hloadedNamed.of_frame (by rw [insertPlace_eq]) fun _ hrequest ↦ by
        rwa [insertPlace_eq] at hrequest
    exact hinserted.notify hnotify
  · obtain ⟨newPlace, requested, hdecoded, _, hrequested, hnotify⟩ :=
      childChanged_eq_some_iff.mp hnext
    have hreplacedNamed : Named { app with
        heap := app.heap.alloc newPlace
        places := replaceEntry (app.heap.alloc newPlace) app.heap.next app.places } :=
      (hfresh hdecoded).of_frame rfl fun _ hrequest ↦ hrequest
    exact (hreplacedNamed.downloadImageFromStorage (Nat.lt_succ_self _) hrequested).notify hnotify

/-- A round of `prepare` keeps the objects alive and their image names. -/
theorem Named.prepareImage {place : Ref} (hlive : place < app.heap.next) {image : String}
    (himage : image ∈ (app.heap.read place).imageNames)
    (hnext : App.prepareImage place app image = some next) :
    next.Named ∧ next.heap.next = app.heap.next := by
  rcases (cases_of_prepareImage hnext).2 with ⟨data, _, ⟨_, rfl⟩ | ⟨_, rfl⟩⟩ | ⟨_, rfl⟩
  · exact ⟨h.setImage himage data, rfl⟩
  · exact ⟨h, rfl⟩
  · exact ⟨⟨h.objects, h.requests.append hlive (fun _ hname ↦ hname) .allImages⟩, rfl⟩

theorem Named.prepare {place : Ref} (hlive : place < app.heap.next)
    (hnext : app.prepare place = some next) : next.Named := by
  refine (prepare_rule (fun state ↦ state.Named ∧ state.heap.next = app.heap.next ∧
    (state.heap.read place).imageNames = (app.heap.read place).imageNames) ⟨h, rfl, rfl⟩ ?_ hnext).1
  rintro before image after himage ⟨hnamed, hsame, hnames⟩ hround
  obtain ⟨hafter, hkept⟩ := hnamed.prepareImage (hsame ▸ hlive) (hnames ▸ himage) hround
  exact ⟨hafter, hkept.trans hsame, (prepared_prepareImage hround).imageNames.trans hnames⟩

theorem Named.openDetail (hdisplayed : app.Displayed) {page : PageId} {row : ℕ}
    (hnext : app.openDetail page row = some next) : next.Named := by
  obtain ⟨list, place, prepared, hlist, hrow, hprepare, rfl⟩ := exists_prepared_of_openDetail hnext
  have hlive := (hdisplayed.rows page list hlist place (List.mem_of_getElem? hrow)).1
  exact (h.prepare hlive hprepare).of_frame rfl fun _ hrequest ↦ hrequest

theorem Named.finishFirstImage {request : ImageRequest}
    (hname : request.name ∈ (app.heap.read request.place).imageNames) {answer : Option Data}
    {written : Bool} (hnext : (app.finishFirstImage request answer written).result = some next) :
    next.Named := by
  unfold App.finishFirstImage at hnext
  split at hnext
  · exact Option.some.inj hnext ▸ h
  · split_ifs at hnext
    · exact (h.setImage hname _).writeImageDataToFile hnext
    · exact Option.some.inj hnext ▸ h

theorem Named.openList {showOnlyVisited : Bool}
    (hnext : (app.openList showOnlyVisited).result = some next) : next.Named := by
  obtain ⟨places, _, rfl⟩ := exists_of_openList hnext
  exact h.of_frame rfl fun _ hrequest ↦ hrequest

end Parts

/-! ### Answers to `getPlacesDataForPlace` -/

theorem RequestsNamed.finishPlacesData (h : app.RequestsNamed) {request : ImageRequest}
    {answer : Option Data} {written : Bool}
    (hnext : (app.finishPlacesData request answer written).result = some next) :
    next.RequestsNamed := by
  rcases exists_of_finishPlacesData hnext with rfl | ⟨place, heap, documents, hsame, _, rfl⟩
  · exact h
  · exact h.of_read hsame.1 hsame.2.1 fun _ hrequest ↦ hrequest

/-- What an answer with data does to the objects: the entry for the key of the place gains the
image, unless it has one of the name. -/
theorem heap_finishPlacesData {request : ImageRequest} {data : Data} {written : Bool}
    (hnext : (app.finishPlacesData request (some data) written).result = some next) :
    next.heap = ((app.entry (app.heap.read request.place).key).elim app fun item ↦
      if (app.heap.read item).placeImages.lookup request.name = none then
        app.setImage item request.name data
      else app).heap := by
  obtain ⟨stored, hstored, hlast⟩ := Option.bind_eq_some_iff.mp hnext
  obtain ⟨notified, hnotified, hreloaded⟩ := Option.bind_eq_some_iff.mp hlast
  obtain rfl := Option.some.inj hreloaded
  obtain rfl := eq_refresh_of_notify hnotified
  change ((app.entry (app.heap.read request.place).key).elim (pure app) _ : Method App).result =
    some stored at hstored
  cases hitem : app.entry (app.heap.read request.place).key with
  | none =>
    rw [hitem] at hstored
    obtain rfl := Option.some.inj hstored
    rfl
  | some item =>
    rw [hitem, Option.elim_some] at hstored
    rw [Option.elim_some]
    unfold storeImage at hstored
    split_ifs at hstored with hmissing
    · rw [if_pos hmissing]
      obtain ⟨file, hfile, hstored⟩ := Option.bind_eq_some_iff.mp hstored
      rw [eq_refresh_of_notify hstored]
      rcases cases_of_writeImageDataToFile hfile with rfl | rfl <;> rfl
    · rw [if_neg hmissing, ← Option.some.inj hstored]
      rfl

/-- An answer with data keeps the names exactly if the entry has the name that it comes for. -/
theorem holdsNamed_finishPlacesData_iff (h : app.Named) {request : ImageRequest} {data : Data}
    {written : Bool}
    (hnext : (app.finishPlacesData request (some data) written).result = some next) :
    next.HoldsNamed ↔ ∀ item ∈ app.entry (app.heap.read request.place).key,
      request.name ∈ (app.heap.read item).imageNames := by
  rw [HoldsNamed, heap_finishPlacesData hnext]
  cases hitem : app.entry (app.heap.read request.place).key with
  | none => exact iff_of_true h.objects fun item hmem ↦ by cases hmem
  | some item =>
    simp only [Option.elim_some, Option.mem_def, Option.some.injEq, forall_eq']
    split_ifs with hmissing
    · refine ⟨fun hnamed ↦ ?_, fun hname ↦ (h.setImage hname data).objects⟩
      have hloaded := hnamed item request.name
      rw [setImage, Heap.read_write_self, Finmap.lookup_insert] at hloaded
      exact hloaded (Option.some_ne_none data)
    · exact iff_of_true h.objects (h.objects item request.name hmissing)

/-! ### Runs -/

/-- What every step keeps, whatever the answers come for. -/
structure NamedInvariant (app : App) : Prop where
  displayed : app.Displayed
  requests : app.RequestsNamed

/-- An action that is not an answer to `getPlacesDataForPlace` keeps the names. -/
theorem Named.runtimeStep (hdisplayed : app.Displayed) (h : app.Named) {action : RuntimeAction}
    (haction : ∀ index answer written, action ≠ .page (.finishPlacesData index answer written))
    (hnext : app.runtimeStep action = some next) : next.Named := by
  cases action with
  | signIn uid =>
    obtain rfl := Option.some.inj hnext
    exact h.of_frame rfl fun _ hrequest ↦ hrequest
  | signOut =>
    obtain rfl := Option.some.inj hnext
    exact h.of_frame rfl fun _ hrequest ↦ hrequest
  | finishFirstImage index answer written =>
    obtain ⟨request, hrequest, hanswered⟩ := Option.bind_eq_some_iff.mp hnext
    have hrequest := (requestAt_eq_some_iff.mp hrequest).1
    have hremoved : Named { app with requests := app.requests.eraseIdx index } :=
      h.of_frame rfl fun _ hmem ↦ List.mem_of_mem_eraseIdx hmem
    exact hremoved.finishFirstImage (h.requests request (List.mem_of_getElem? hrequest)).2
      hanswered
  | page action =>
    cases action with
    | openList =>
      have hopened : (app.openList false).result = some next := hnext
      exact h.openList hopened
    | openMyPlaces =>
      rcases cases_of_openMyPlaces hnext with hopened | rfl
      · exact h.openList hopened
      · exact h
    | closeList page =>
      obtain rfl := Option.some.inj hnext
      exact h.of_frame rfl fun _ hrequest ↦ hrequest
    | openDetail page row => exact h.openDetail hdisplayed hnext
    | closeDetail page =>
      obtain rfl := Option.some.inj hnext
      exact h.of_frame rfl fun _ hrequest ↦ hrequest
    | observe event => exact h.handle hnext
    | finishPlacesData index answer written => exact absurd rfl (haction index answer written)

/-- An answer to `getPlacesDataForPlace` keeps the requests, and the names exactly if it comes for a
name of the entry. -/
theorem named_finishPlacesData (h : app.Named) {index : ℕ} {answer : Option Data} {written : Bool}
    (hnext : app.runtimeStep (.page (.finishPlacesData index answer written)) = some next) :
    next.RequestsNamed ∧
      (next.HoldsNamed ↔ app.AnswersNamed (.page (.finishPlacesData index answer written))) := by
  obtain ⟨request, hrequest, hanswered⟩ := Option.bind_eq_some_iff.mp hnext
  have hrequest := (requestAt_eq_some_iff.mp hrequest).1
  have hremoved : Named { app with requests := app.requests.eraseIdx index } :=
    h.of_frame rfl fun _ hmem ↦ List.mem_of_mem_eraseIdx hmem
  refine ⟨hremoved.requests.finishPlacesData hanswered, ?_⟩
  cases answer with
  | none =>
    obtain rfl := Option.some.inj hanswered
    exact iff_of_true h.objects trivial
  | some data =>
    rw [holdsNamed_finishPlacesData_iff hremoved hanswered, AnswersNamed, hrequest]
    simp only [Option.mem_def, Option.some.injEq, forall_eq']
    rfl

/-- Every step keeps the invariant, and the names exactly if an answer that it stores comes for a
name of the entry. -/
theorem NamedInvariant.step (h : app.NamedInvariant) (hobjects : app.HoldsNamed)
    {action : RuntimeAction} (hnext : app.runtimeStep action = some next) :
    next.NamedInvariant ∧ (next.HoldsNamed ↔ app.AnswersNamed action) := by
  have hnamed : app.Named := ⟨hobjects, h.requests⟩
  have hdisplayed := h.displayed.runtimeStep hnext
  by_cases hanswer : ∃ index answer written,
      action = .page (.finishPlacesData index answer written)
  · obtain ⟨index, answer, written, rfl⟩ := hanswer
    obtain ⟨hrequests, hexact⟩ := named_finishPlacesData hnamed hnext
    exact ⟨⟨hdisplayed, hrequests⟩, hexact⟩
  · have haction (index : ℕ) (answer : Option Data) (written : Bool) :
        action ≠ .page (.finishPlacesData index answer written) :=
      fun heq ↦ hanswer ⟨index, answer, written, heq⟩
    obtain ⟨hafter, hrequests⟩ := hnamed.runtimeStep h.displayed haction hnext
    refine ⟨⟨hdisplayed, hrequests⟩, iff_of_true hafter ?_⟩
    unfold AnswersNamed
    split
    · exact absurd rfl (haction _ _ _)
    · trivial

/-- Assumes: a run from launch. In every state of the run every image that an object holds has a
name of its place, precisely when every answer to `getPlacesDataForPlace` with data comes for a name
that the entry of the place has when it comes. -/
theorem holdsNamed_iff {currentUser : Option String} {documents : Dictionary String Data}
    {directories : String → Bool} {actions : List RuntimeAction} {final : App}
    (hrun : PartialRun.run App.runtimeStep (launched currentUser documents directories) actions =
      some final) :
    PartialRun.Throughout App.runtimeStep HoldsNamed (launched currentUser documents directories)
        actions ↔
      PartialRun.Guarded App.runtimeStep AnswersNamed (launched currentUser documents directories)
        actions := by
  have hstart : (launched currentUser documents directories).NamedInvariant :=
    ⟨displayed_launched currentUser documents directories, fun _ hrequest ↦
      (List.not_mem_nil hrequest).elim⟩
  exact PartialRun.throughout_iff_guarded
    (fun _ _ _ h hobjects hstep ↦ (NamedInvariant.step h hobjects hstep).1)
    (fun _ _ _ h hobjects hstep ↦ (NamedInvariant.step h hobjects hstep).2) hstart
    (fun _ _ hloaded ↦ absurd rfl hloaded) hrun

/-- `samplePlace` with another image. -/
def renamedPlace : Place := { samplePlace with imageNames := ["vitosha.jpg"] }

/-- The detail page of a place is opened, which requests its image, and the image names of the place
change before the answer comes. -/
def renamedActions (answer : Option Data) : List RuntimeAction :=
  [.page .openList, .page (.observe (sampleEvent .childAdded samplePlace)), .page (.openDetail 0 0),
    .page (.observe (sampleEvent .childChanged renamedPlace)),
    .page (.finishPlacesData 1 answer true)]

/-- The new entry gets an image of the old name, unless the answer is an error. -/
theorem holdsNamed_iff_sample :
    PartialRun.Throughout App.runtimeStep HoldsNamed (launched none ∅ sampleDirectories)
        (renamedActions none) ∧
      ¬ PartialRun.Throughout App.runtimeStep HoldsNamed (launched none ∅ sampleDirectories)
        (renamedActions (some [1])) := by
  have hruns (answer : Option Data) (hanswer : answer = none ∨ answer = some [1]) :
      (PartialRun.run App.runtimeStep (launched none ∅ sampleDirectories)
        (renamedActions answer)).isSome := by
    rcases hanswer with rfl | rfl <;> decide +kernel
  obtain ⟨_, hfailed⟩ := Option.isSome_iff_exists.mp (hruns none (Or.inl rfl))
  obtain ⟨_, hanswered⟩ := Option.isSome_iff_exists.mp (hruns (some [1]) (Or.inr rfl))
  exact ⟨(holdsNamed_iff hfailed).mpr (by decide +kernel),
    fun hnamed ↦ absurd ((holdsNamed_iff hanswered).mp hnamed) (by decide +kernel)⟩

end App

end BeenHere
