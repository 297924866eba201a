import BeenHere.Library.PartialRun
import BeenHere.Network

/-!
# The stored average

The rating of a place is written beside its ratings, and each is decoded on its own. In every run of
the network from records whose rating is the mean of their ratings, every record and every object of
every client keeps that property (`rating_eq_calculateRating`): stale copies may overwrite each
other in any order, but a write carries both children. The invariant (`Network.Consistent`) covers
the writes and the events under way as well.
-/

set_option autoImplicit false
set_option relaxedAutoImplicit false

namespace BeenHere

open Firebase ObjectHeap

/-- The rating of a place is the mean of its ratings. -/
def Place.RatingIsMean (place : Place) : Prop := place.rating = place.calculateRating

/-- The mean of the values of a dictionary of ratings, and 0 when there are none. -/
def meanRating (ratings : Dictionary String ℤ) : ℚ :=
  Place.calculateRating { Place.init with ratings }

/-- The child `rating` of a record is the mean of the child `ratings`. -/
def Firebase.Record.RatingIsMean (record : Record) : Prop :=
  ∃ ratings : Dictionary String ℤ,
    record.child "ratings" = (Value.dictionary (integers ratings)).stored ∧
    record.child "rating" = some (.leaf (.number (meanRating ratings)))

theorem Place.ratingIsMean_withoutImages {place : Place} :
    place.withoutImages.RatingIsMean ↔ place.RatingIsMean := Iff.rfl

theorem Place.ratingIsMean_visit {place : Place} (h : place.RatingIsMean)
    (currentUser : Option String) : (Places.visit currentUser place).2.RatingIsMean := by
  by_cases hmem : Places.visitName currentUser place ∈ place.visitors
  · rw [Places.visit_of_mem hmem]
    exact h
  · rw [Places.visit_of_notMem hmem]
    exact h

theorem Place.ratingIsMean_rate (place : Place) (currentUser : Option String) (rating : ℤ) :
    (Places.rate currentUser place rating).RatingIsMean := rating_rate ..

/-- A write of a place replaces both children. -/
theorem Firebase.Record.ratingIsMean_updateChildValues {place : Place} (h : place.RatingIsMean)
    (record : Record) :
    (record.updateChildValues (Place.dictionaryFromPlace place)).RatingIsMean := by
  have hrating : Place.dictionaryFromPlace place "rating" =
      some (.scalar (.number place.rating)) := rfl
  refine ⟨place.ratings, Record.child_updateChildValues_of_some rfl, ?_⟩
  rw [Record.child_updateChildValues_of_some hrating, h]
  rfl

/-- The two children are decoded to the two fields. -/
theorem Firebase.Record.ratingIsMean_of_decodes {record : Record} (h : record.RatingIsMean)
    {key : String} {place : Place}
    (hdecoded : Place.placeFromDictionary record.snapshot key = some place) :
    place.RatingIsMean := by
  have hplace := Place.decodes_iff.mp hdecoded
  obtain ⟨ratings, hratings, hrating⟩ := h
  have hstored := Place.unboxed_of_asIntDictionary hplace.ratings
  rw [hratings, unboxed_stored_integers] at hstored
  have hleaf := Place.unboxed_of_requiredChild exists_scalar_of_asDouble hplace.rating
  rw [hrating, stored_integers_injective hstored] at hleaf
  have hmean : place.rating = meanRating place.ratings := by
    simpa [Node.unboxed, Scalar.unboxed] using hleaf.symm
  exact hmean

/-! ### One client -/

/-- Every object of an app, and every place that it is about to write, has its mean. -/
structure App.Consistent (app : App) : Prop where
  heap : ∀ ref, (app.heap.read ref).RatingIsMean
  outbox : ∀ write ∈ app.outbox, ∃ place : Place, place.RatingIsMean ∧
    write.values = Place.dictionaryFromPlace place

section Calls

variable {app : App} (h : app.Consistent)

include h

/-- Writing an object, and its place to the database, when the place has its mean. -/
theorem App.consistent_writeBack {place : Place} (hplace : place.RatingIsMean) (ref : Ref) :
    (app.writeBack ref place).Consistent where
  heap := app.heap.forall_read_write place Place.RatingIsMean hplace h.heap
  outbox write hwrite := by
    rcases List.mem_append.mp hwrite with hold | hnew
    · exact h.outbox write hold
    · exact ⟨place, hplace, by rw [List.mem_singleton.mp hnew]⟩

theorem App.consistent_visit (ref : Ref) : (app.visit ref).2.Consistent :=
  visit_rule Consistent h fun _ ↦
    consistent_writeBack h (Place.ratingIsMean_visit (h.heap ref) app.currentUser) ref

theorem App.consistent_rate (ref : Ref) (rating : ℤ) : (app.rate ref rating).Consistent :=
  consistent_writeBack h (Place.ratingIsMean_rate _ app.currentUser rating) ref

theorem App.consistent_handle {next : App} {event : Event} {record : Record}
    (hrecord : record.RatingIsMean) (hevent : event.child = record.snapshot)
    (hhandle : app.handle event = some next) : next.Consistent := by
  obtain ⟨decoded, newPlace, places, requests, listPages, hdecoded, hsame, rfl⟩ :=
    exists_of_handle hhandle
  rw [hevent] at hdecoded
  have hnew : newPlace.RatingIsMean := by
    rw [← Place.ratingIsMean_withoutImages, hsame, Place.ratingIsMean_withoutImages]
    exact Record.ratingIsMean_of_decodes hrecord hdecoded
  exact ⟨app.heap.forall_read_alloc newPlace Place.RatingIsMean hnew h.heap, h.outbox⟩

end Calls

/-- A client whose app is consistent and whose events hold snapshots of records with their mean. -/
structure Client.Consistent (client : Client) : Prop where
  app : client.app.Consistent
  inbox : ∀ event ∈ client.inbox, ∃ record : Record, record.RatingIsMean ∧
    event.child = record.snapshot

/-! ### The network -/

namespace Network

variable {ι : Type}

/-- The invariant. -/
structure Consistent (network : Network ι) : Prop where
  database : ∀ key record, network.database key = some record → record.RatingIsMean
  client : ∀ client, (network.client client).Consistent

variable {network : Network ι}

theorem Consistent.commit (h : network.Consistent) {write : Write} {place : Place}
    (hplace : place.RatingIsMean) (hwrite : write.values = Place.dictionaryFromPlace place) :
    (network.commit write).Consistent := by
  have hupdated : Record.RatingIsMean
      ((network.record write.key).updateChildValues write.values) := by
    rw [hwrite]
    exact Record.ratingIsMean_updateChildValues hplace _
  refine ⟨fun key record hrecord ↦ ?_, fun client ↦ ⟨(h.client client).app, fun event hevent ↦ ?_⟩⟩
  · by_cases hkey : key = write.key
    · rw [hkey, database_commit_self] at hrecord
      exact Option.some.inj hrecord ▸ hupdated
    · rw [database_commit_of_ne hkey] at hrecord
      exact h.database key record hrecord
  · rcases List.mem_append.mp hevent with hold | hnew
    · exact (h.client client).inbox event hold
    · exact ⟨_, hupdated, by rw [List.mem_singleton.mp hnew]⟩

variable [DecidableEq ι]

theorem Consistent.setClient (h : network.Consistent) (client : ι) {changed : Client}
    (hchanged : changed.Consistent) : (network.setClient client changed).Consistent :=
  ⟨h.database, forall_setClient Client.Consistent hchanged h.client⟩

variable (distanceBetween : Point → Point → ℚ)

/-- Every step keeps the invariant. -/
theorem Consistent.step (h : network.Consistent) {next : Network ι} {action : Action ι}
    (hstep : network.step distanceBetween action = some next) : next.Consistent := by
  cases action with
  | visit client place =>
    obtain rfl := Option.some.inj hstep
    exact h.setClient client
      ⟨App.consistent_visit (h.client client).app place, (h.client client).inbox⟩
  | rate client place rating =>
    obtain rfl := Option.some.inj hstep
    exact h.setClient client
      ⟨App.consistent_rate (h.client client).app place rating, (h.client client).inbox⟩
  | locate client fix =>
    obtain rfl := Option.some.inj hstep
    refine h.setClient client ⟨?_, (h.client client).inbox⟩
    exact locationUpdated_app distanceBetween App.Consistent
      (fun _ hother place _ _ ↦ App.consistent_visit hother place) (h.client client).app _
  | apply client index =>
    obtain ⟨write, hwrite, rfl⟩ := Option.map_eq_some_iff.mp hstep
    obtain ⟨place, hplace, hvalues⟩ :=
      (h.client client).app.outbox write (List.mem_of_getElem? hwrite)
    have hchanged : Client.Consistent
        { network.client client with
          app := { (network.client client).app with
            outbox := (network.client client).app.outbox.eraseIdx index } } :=
      ⟨⟨(h.client client).app.heap, fun other hother ↦
        (h.client client).app.outbox other (List.mem_of_mem_eraseIdx hother)⟩,
        (h.client client).inbox⟩
    exact (h.setClient client hchanged).commit hplace hvalues
  | deliver client index =>
    obtain ⟨event, hevent, hhandled⟩ := Option.bind_eq_some_iff.mp hstep
    obtain ⟨app, happ, rfl⟩ := Option.map_eq_some_iff.mp hhandled
    obtain ⟨record, hrecord, hchild⟩ :=
      (h.client client).inbox event (List.mem_of_getElem? hevent)
    refine h.setClient client
      ⟨App.consistent_handle (h.client client).app hrecord hchild happ, fun other hother ↦ ?_⟩
    exact (h.client client).inbox other (List.mem_of_mem_eraseIdx hother)
  | observe client kind key =>
    obtain ⟨record, hrecord, rfl⟩ := Option.map_eq_some_iff.mp hstep
    refine h.setClient client ⟨(h.client client).app, fun event hevent ↦ ?_⟩
    rcases List.mem_append.mp hevent with hold | hnew
    · exact (h.client client).inbox event hold
    · exact ⟨record, h.database key record hrecord, by rw [List.mem_singleton.mp hnew]⟩
  | remove key =>
    obtain rfl := Option.some.inj hstep
    refine ⟨fun other record hrecord ↦ ?_, h.client⟩
    by_cases hother : other = key
    · rw [hother] at hrecord
      simp at hrecord
    · exact h.database other record (by simpa [hother] using hrecord)

/-- Assumes: records and copies whose ratings are their means, and nothing under way. In every state
of every run, the rating of every record and of every object of every client is the mean of its
ratings. What a row of a list shows, `rating`, and what the header of the detail page shows,
`calculateRating()`, are therefore equal for one copy. -/
theorem rating_eq_calculateRating {start final : Network ι}
    (hdatabase : ∀ key record, start.database key = some record → record.RatingIsMean)
    (hcopies : ∀ client ref, ((start.client client).app.heap.read ref).RatingIsMean)
    (houtbox : ∀ client, (start.client client).app.outbox = [])
    (hinbox : ∀ client, (start.client client).inbox = [])
    {actions : List (Action ι)}
    (hrun : PartialRun.run (step distanceBetween) start actions = some final) :
    (∀ key record, final.database key = some record → record.RatingIsMean) ∧
      ∀ client ref, ((final.client client).app.heap.read ref).rating =
        ((final.client client).app.heap.read ref).calculateRating := by
  have hstart : start.Consistent :=
    ⟨hdatabase, fun client ↦ ⟨⟨hcopies client, by simp [houtbox client]⟩, by simp [hinbox client]⟩⟩
  have hfinal : final.Consistent :=
    PartialRun.run_invariant_on
      (fun _ _ _ _ hstate hstep ↦ hstate.step distanceBetween hstep) hstart hrun
  exact ⟨hfinal.database, fun client ↦ (hfinal.client client).app.heap⟩

/-- Both users rate at once, and the record of the second is applied over the first. -/
def sampleRatings : List (Action Bool) :=
  [.rate true 0 4, .rate false 0 1, .apply true 0, .apply false 0, .deliver true 1]

theorem rating_eq_calculateRating_sample :
    ∃ final, PartialRun.run (step sampleDistance) sampleNetwork sampleRatings = some final ∧
      ((final.client true).app.heap.read 1).rating =
        ((final.client true).app.heap.read 1).calculateRating := by
  have hruns : (PartialRun.run (step sampleDistance) sampleNetwork sampleRatings).isSome := by
    decide +kernel
  obtain ⟨final, hrun⟩ := Option.isSome_iff_exists.mp hruns
  have hsample : samplePlace.RatingIsMean := rfl
  have hdatabase : ∀ key record, sampleNetwork.database key = some record →
      record.RatingIsMean := by
    intro key record hrecord
    by_cases hkey : key = "boyana"
    · simp only [sampleNetwork, hkey, Function.update_self, Option.some.injEq] at hrecord
      exact hrecord ▸ Record.ratingIsMean_updateChildValues hsample _
    · simp [sampleNetwork, hkey] at hrecord
  exact ⟨final, hrun, (rating_eq_calculateRating sampleDistance hdatabase (fun _ _ ↦ hsample)
    (fun _ ↦ rfl) (fun _ ↦ rfl) hrun).2 true 1⟩

end Network

end BeenHere
