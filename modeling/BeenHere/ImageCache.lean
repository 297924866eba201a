import BeenHere.Library.PartialRun
import BeenHere.Runtime

/-!
# The images of an app

Image data is held in three places: in the objects, in the strips of the open detail pages, and in
the documents directory, which outlives the app. Data gets there by many ways: an observer copies a
file into a new object, `prepare` copies files into the object of a row, and the answers of the
storage arrive in any order, after the place has changed, been replaced in the store or been opened
again, and the write of a file may fail. If the storage answers every request for a name with the
same data, then whatever happens the app holds under a name nothing but the data of that name, and a
file that has been written is never lost or changed (`cached_of_run`).
-/

set_option autoImplicit false
set_option relaxedAutoImplicit false

namespace BeenHere

open Firebase ObjectHeap Traced

/-- Under every name there is the data that the storage has for it, or none. -/
def Agrees (storage : String → Data) (images : Dictionary String Data) : Prop :=
  ∀ name data, images.lookup name = some data → data = storage name

theorem agrees_empty (storage : String → Data) : Agrees storage ∅ := by
  intro name data hdata
  rw [Finmap.lookup_empty] at hdata
  cases hdata

theorem Agrees.insert {storage : String → Data} {images : Dictionary String Data}
    (h : Agrees storage images) {name : String} {data : Data} (hdata : data = storage name) :
    Agrees storage (images.insert name data) := by
  intro other value hvalue
  by_cases hother : other = name
  · rw [hother, Finmap.lookup_insert, Option.some.injEq] at hvalue
    rw [hother, ← hvalue, hdata]
  · rw [Finmap.lookup_insert_of_ne _ hother] at hvalue
    exact h other value hvalue

namespace App

/-- Every image that the app holds is the one of its name, and the files that were there are still
there. -/
structure Cached (storage : String → Data) (files : Dictionary String Data) (app : App) : Prop where
  objects : ∀ ref, Agrees storage (app.heap.read ref).placeImages
  strips : ∀ page detail, app.detailPages page = some detail → Agrees storage detail.strip
  documents : Agrees storage app.documents
  files : ∀ name data, files.lookup name = some data → app.documents.lookup name = some data

/-- The storage answers a request with the data of its name, or with an error. -/
def Answers (storage : String → Data) (app : App) : RuntimeAction → Prop
  | .finishFirstImage index answer _ | .page (.finishPlacesData index answer _) =>
    ∀ request ∈ app.requests[index]?, ∀ data ∈ answer, data = storage request.name
  | _ => True

instance (storage : String → Data) (app : App) : DecidablePred (Answers storage app)
  | .finishFirstImage index answer _ | .page (.finishPlacesData index answer _) =>
    inferInstanceAs (Decidable
      (∀ request ∈ app.requests[index]?, ∀ data ∈ answer, data = storage request.name))
  | .signIn _ | .signOut | .page .openList | .page .openMyPlaces | .page (.closeList _)
  | .page (.openDetail _ _) | .page (.closeDetail _) | .page (.observe _) =>
    inferInstanceAs (Decidable True)

variable {storage : String → Data} {files : Dictionary String Data} {app next : App}

/-! ### Parts of actions -/

section Parts

variable (h : app.Cached storage files)

include h

theorem Cached.of_frame (hheap : next.heap = app.heap) (hdocuments : next.documents = app.documents)
    (hpages : next.detailPages = app.detailPages) : next.Cached storage files :=
  ⟨hheap ▸ h.objects, hpages ▸ h.strips, hdocuments ▸ h.documents, hdocuments ▸ h.files⟩

theorem Cached.notify (hnext : app.notify.result = some next) : next.Cached storage files := by
  rw [eq_refresh_of_notify hnext]
  exact h.of_frame rfl rfl rfl

theorem Cached.setImage (place : Ref) {name : String} {data : Data} (hdata : data = storage name) :
    (app.setImage place name data).Cached storage files where
  objects := app.heap.forall_read_write _ (fun object ↦ Agrees storage object.placeImages)
    ((h.objects place).insert hdata) h.objects
  strips := h.strips
  documents := h.documents
  files := h.files

theorem Cached.writeImageDataToFile {name : String} {data : Data} (hdata : data = storage name)
    {written : Bool} (hnext : (app.writeImageDataToFile name data written).result = some next) :
    next.Cached storage files := by
  rcases cases_of_writeImageDataToFile hnext with rfl | rfl
  · have hdocuments := h.documents.insert hdata
    have hwritten : Cached storage files
        { app with documents := app.documents.insert name data } := by
      refine ⟨h.objects, h.strips, hdocuments, fun other value hvalue ↦ ?_⟩
      by_cases hother : other = name
      · rw [hother, Finmap.lookup_insert, hdata, ← hother,
          h.documents other value (h.files other value hvalue)]
      · rw [Finmap.lookup_insert_of_ne _ hother]
        exact h.files other value hvalue
    exact hwritten.of_frame rfl rfl rfl
  · exact h

theorem Cached.alloc {place : Place} (hplace : Agrees storage place.placeImages) :
    Cached storage files { app with heap := app.heap.alloc place } where
  objects := app.heap.forall_read_alloc place (fun object ↦ Agrees storage object.placeImages)
    hplace h.objects
  strips := h.strips
  documents := h.documents
  files := h.files

theorem Cached.downloadImageFromStorage {place : Ref}
    (hnext : (app.downloadImageFromStorage place).result = some next) :
    next.Cached storage files := by
  obtain ⟨requests, rfl⟩ := exists_of_downloadImageFromStorage hnext
  exact h.of_frame rfl rfl rfl

theorem Cached.loadFirstImage {place : Ref} {name : String}
    (hnext : (app.loadFirstImage place name).result = some next) : next.Cached storage files := by
  rcases (cases_of_loadFirstImage hnext).2 with ⟨data, hdata, rfl⟩ | ⟨_, hrequested⟩
  · exact h.setImage place (h.documents name data hdata)
  · exact h.downloadImageFromStorage hrequested

theorem Cached.handle {event : Event} (hnext : app.handle event = some next) :
    next.Cached storage files := by
  have hfresh {newPlace : Place}
      (hdecoded : Place.placeFromDictionary event.child event.key = some newPlace) :
      Cached storage files { app with heap := app.heap.alloc newPlace } := by
    refine h.alloc ?_
    rw [(Place.decodes_iff.mp hdecoded).placeImages]
    exact agrees_empty storage
  unfold App.handle App.observe at hnext
  split at hnext
  · obtain ⟨_, newPlace, name, loaded, _, hdecoded, _, hloaded, hnotify⟩ :=
      childAdded_eq_some_iff.mp hnext
    have hinserted : (loaded.insertPlace app.heap.next).Cached storage files :=
      ((hfresh hdecoded).loadFirstImage hloaded).of_frame (by rw [insertPlace_eq])
        (by rw [insertPlace_eq]) (by rw [insertPlace_eq])
    exact hinserted.notify hnotify
  · obtain ⟨newPlace, requested, hdecoded, _, hrequested, hnotify⟩ :=
      childChanged_eq_some_iff.mp hnext
    have hreplacedCached : Cached storage files { app with
        heap := app.heap.alloc newPlace
        places := replaceEntry (app.heap.alloc newPlace) app.heap.next app.places } :=
      (hfresh hdecoded).of_frame rfl rfl rfl
    exact (hreplacedCached.downloadImageFromStorage hrequested).notify hnotify

theorem Cached.prepareImage {place : Ref} {image : String}
    (hnext : App.prepareImage place app image = some next) : next.Cached storage files := by
  rcases (cases_of_prepareImage hnext).2 with ⟨data, hdata, ⟨_, rfl⟩ | ⟨_, rfl⟩⟩ | ⟨_, rfl⟩
  · exact h.setImage place (h.documents image data hdata)
  · exact h
  · exact h.of_frame rfl rfl rfl

theorem Cached.openDetail {page : PageId} {row : ℕ} (hnext : app.openDetail page row = some next) :
    next.Cached storage files := by
  obtain ⟨_, place, prepared, _, _, hprepare, rfl⟩ := exists_prepared_of_openDetail hnext
  have hprepared : prepared.Cached storage files :=
    prepare_rule (Cached storage files) h
      (fun _ _ _ _ hbefore hround ↦ hbefore.prepareImage hround) hprepare
  refine ⟨hprepared.objects, fun other detail hdetail ↦ ?_, hprepared.documents, hprepared.files⟩
  by_cases hother : other = prepared.nextPage
  · simp only [hother, Function.update_self, Option.some.injEq] at hdetail
    rw [← hdetail]
    exact hprepared.objects place
  · simp only [Function.update_of_ne hother] at hdetail
    exact hprepared.strips other detail hdetail

theorem Cached.reloadData : app.reloadData.Cached storage files := by
  refine ⟨h.objects, fun page detail hdetail ↦ ?_, h.documents, h.files⟩
  obtain ⟨before, _, rfl⟩ := Option.map_eq_some_iff.mp hdetail
  exact h.objects before.detailPlace

theorem Cached.storeImage {item : Ref} {name : String} {data : Data} (hdata : data = storage name)
    {written : Bool} (hnext : (app.storeImage item name data written).result = some next) :
    next.Cached storage files := by
  unfold App.storeImage at hnext
  split_ifs at hnext
  · obtain ⟨stored, hstored, hnotify⟩ := Option.bind_eq_some_iff.mp hnext
    exact ((h.setImage item hdata).writeImageDataToFile hdata hstored).notify hnotify
  · exact Option.some.inj hnext ▸ h

theorem Cached.finishPlacesData {request : ImageRequest} {answer : Option Data}
    (hanswer : ∀ data ∈ answer, data = storage request.name) {written : Bool}
    (hnext : (app.finishPlacesData request answer written).result = some next) :
    next.Cached storage files := by
  unfold App.finishPlacesData at hnext
  split at hnext
  · exact Option.some.inj hnext ▸ h
  · rename_i data
    have hdata := hanswer data rfl
    obtain ⟨stored, hstored, hlast⟩ := Option.bind_eq_some_iff.mp hnext
    obtain ⟨notified, hnotify, hreloaded⟩ := Option.bind_eq_some_iff.mp hlast
    obtain rfl := Option.some.inj hreloaded
    refine Cached.reloadData (Cached.notify ?_ hnotify)
    cases hitem : app.places.find? fun ref ↦
        (app.heap.read ref).key = (app.heap.read request.place).key with
    | none =>
      rw [hitem] at hstored
      exact Option.some.inj hstored ▸ h
    | some item =>
      rw [hitem] at hstored
      exact h.storeImage hdata hstored

theorem Cached.finishFirstImage {request : ImageRequest} {answer : Option Data}
    (hanswer : ∀ data ∈ answer, data = storage request.name) {written : Bool}
    (hnext : (app.finishFirstImage request answer written).result = some next) :
    next.Cached storage files := by
  unfold App.finishFirstImage at hnext
  split at hnext
  · exact Option.some.inj hnext ▸ h
  · rename_i data
    have hdata := hanswer data rfl
    split_ifs at hnext
    · exact (h.setImage request.place hdata).writeImageDataToFile hdata hnext
    · exact Option.some.inj hnext ▸ h

theorem Cached.openList {showOnlyVisited : Bool}
    (hnext : (app.openList showOnlyVisited).result = some next) : next.Cached storage files := by
  obtain ⟨places, _, rfl⟩ := exists_of_openList hnext
  exact h.of_frame rfl rfl rfl

end Parts

/-! ### Runs -/

/-- Every action keeps the invariant. -/
theorem Cached.runtimeStep (h : app.Cached storage files) {action : RuntimeAction}
    (hanswers : app.Answers storage action) (hnext : app.runtimeStep action = some next) :
    next.Cached storage files := by
  have hrequests (requests : List ImageRequest) :
      Cached storage files { app with requests := requests } := h.of_frame rfl rfl rfl
  cases action with
  | signIn uid =>
    obtain rfl := Option.some.inj hnext
    exact h.of_frame rfl rfl rfl
  | signOut =>
    obtain rfl := Option.some.inj hnext
    exact h.of_frame rfl rfl rfl
  | finishFirstImage index answer written =>
    obtain ⟨request, hrequest, hanswered⟩ := Option.bind_eq_some_iff.mp hnext
    have hrequest := (requestAt_eq_some_iff.mp hrequest).1
    exact (hrequests _).finishFirstImage (hanswers request hrequest) hanswered
  | page action =>
    cases action with
    | openList =>
      have hopened : (app.openList false).result = some next := hnext
      exact h.openList hopened
    | openMyPlaces =>
      rcases cases_of_openMyPlaces hnext with hopened | rfl
      · exact h.openList hopened
      · exact h
    | closeList page =>
      obtain rfl := Option.some.inj hnext
      exact h.of_frame rfl rfl rfl
    | openDetail page row => exact h.openDetail hnext
    | closeDetail page =>
      obtain rfl := Option.some.inj hnext
      refine ⟨h.objects, fun other detail hdetail ↦ ?_, h.documents, h.files⟩
      by_cases hother : other = page
      · simp [closeDetail, hother] at hdetail
      · simp only [closeDetail, Function.update_of_ne hother] at hdetail
        exact h.strips other detail hdetail
    | observe event => exact h.handle hnext
    | finishPlacesData index answer written =>
      obtain ⟨request, hrequest, hanswered⟩ := Option.bind_eq_some_iff.mp hnext
      have hrequest := (requestAt_eq_some_iff.mp hrequest).1
      exact (hrequests _).finishPlacesData (hanswers request hrequest) hanswered

theorem cached_launched (currentUser : Option String) {documents : Dictionary String Data}
    (directories : String → Bool) (hdocuments : Agrees storage documents) :
    (launched currentUser documents directories).Cached storage documents where
  objects _ := agrees_empty storage
  strips _ _ hdetail := by cases hdetail
  documents := hdocuments
  files _ _ hdata := hdata

/-- Assumes: files of an earlier run that are the storage's, and answers to the requests that are
the storage's or errors. After any run from launch, every object and every strip holds under a name
only the data that the storage has for it, so does the documents directory, and the files that were
there at launch are still there. -/
theorem cached_of_run {currentUser : Option String} {documents : Dictionary String Data}
    {directories : String → Bool} (hdocuments : Agrees storage documents)
    {actions : List RuntimeAction} {final : App}
    (hanswers : PartialRun.Guarded App.runtimeStep (Answers storage)
      (launched currentUser documents directories) actions)
    (hrun : PartialRun.run App.runtimeStep (launched currentUser documents directories) actions =
      some final) :
    (∀ ref, Agrees storage (final.heap.read ref).placeImages) ∧
      (∀ page detail, final.detailPages page = some detail → Agrees storage detail.strip) ∧
      Agrees storage final.documents ∧
      ∀ name data, documents.lookup name = some data →
        final.documents.lookup name = some data := by
  obtain ⟨hobjects, hstrips, hfiles, hkept⟩ := PartialRun.run_invariant
    (fun _ _ _ hstate hguard hstep ↦ Cached.runtimeStep hstate hguard hstep)
      (cached_launched currentUser directories hdocuments) hanswers hrun
  exact ⟨hobjects, hstrips, hfiles, hkept⟩

/-- A place is added, its detail page is opened while its image is requested, the place changes, and
the answers arrive: the first one for the object that the store has replaced. -/
def lateAnswers : List RuntimeAction :=
  [.page .openList, .page (.observe (sampleEvent .childAdded samplePlace)), .page (.openDetail 0 0),
    .page (.observe (sampleEvent .childChanged visitedPlace)), .finishFirstImage 0 (some [1]) true,
    .page (.finishPlacesData 0 (some [1]) true)]

theorem cached_of_run_sample : ∃ final,
    PartialRun.run App.runtimeStep (launched none ∅ sampleDirectories) lateAnswers = some final ∧
      final.documents.lookup "boyana.jpg" ≠ none ∧ Agrees (fun _ ↦ [1]) final.documents := by
  have hruns : (PartialRun.run App.runtimeStep (launched none ∅ sampleDirectories) lateAnswers).map
      (fun final ↦ (final.documents.lookup "boyana.jpg").isSome) = some true := by
    decide +kernel
  have hanswers : PartialRun.Guarded App.runtimeStep (Answers fun _ ↦ [1])
      (launched none ∅ sampleDirectories) lateAnswers := by
    decide +kernel
  obtain ⟨final, hrun, hfile⟩ := Option.map_eq_some_iff.mp hruns
  exact ⟨final, hrun, Option.isSome_iff_ne_none.mp hfile,
    (cached_of_run (agrees_empty _) hanswers hrun).2.2.1⟩

end App

end BeenHere
