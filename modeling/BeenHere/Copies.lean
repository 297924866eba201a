import BeenHere.Fixes
import BeenHere.Library.PartialRun
import BeenHere.Network
import BeenHere.PlaceRecord

/-!
# Every copy of a place

At any time a place exists in many copies: the objects of the clients, some of them no longer in a
store, the writes that the server has not applied, the events that no client has taken, and the
record itself. Copies are made of copies, by encoding and decoding, and only `Places.visit` and
`Places.rate` change one. `Everywhere.step` is the rule for properties of all copies: a step needs
to be looked at only for its calls, in whatever order the writes are applied and the events are
delivered, and whatever overwrites what.

The rule gives the descent of every copy (`everywhere_descends`): image data aside, it is a copy
from the start of the run after some of the calls made on the place, in their order.
-/

set_option autoImplicit false
set_option relaxedAutoImplicit false

namespace BeenHere

open Firebase ObjectHeap

namespace Place

/-- A write determines its place, image data aside. -/
theorem withoutImages_eq_of_dictionaryFromPlace {place other : Place}
    (h : dictionaryFromPlace place = dictionaryFromPlace other) :
    place.withoutImages = other.withoutImages := by
  have hstrings {texts others : List String}
      (hsame : some (Value.array (strings texts)) = some (.array (strings others))) :
      texts = others := by
    have helements := congrArg stringElements (Value.array.inj (Option.some.inj hsame))
    rw [stringElements_strings, stringElements_strings] at helements
    exact Option.some.inj helements
  have htext {text otherText : String}
      (hsame : some (Value.scalar (.string text)) = some (.scalar (.string otherText))) :
      text = otherText := Scalar.string.inj (Value.scalar.inj (Option.some.inj hsame))
  have hnumber {value otherValue : ℚ}
      (hsame : some (Value.scalar (.number value)) = some (.scalar (.number otherValue))) :
      value = otherValue := Scalar.number.inj (Value.scalar.inj (Option.some.inj hsame))
  have hratings : Value.dictionary (integers place.ratings) =
      .dictionary (integers other.ratings) := Option.some.inj (congrFun h "ratings")
  ext1
  · exact htext (congrFun h "name")
  · exact htext (congrFun h "key")
  · exact htext (congrFun h "info")
  · exact hnumber (congrFun h "lat")
  · exact hnumber (congrFun h "lon")
  · exact hnumber (congrFun h "rating")
  · exact Int.cast_injective (hnumber (congrFun h "visits"))
  · exact hstrings (congrFun h "visitors")
  · exact stored_integers_injective (congrArg Value.stored hratings)
  · exact hstrings (congrFun h "images")
  · rfl

end Place

theorem Place.placeFromDictionary_sampleRecord :
    Place.placeFromDictionary sampleRecord.snapshot "boyana" = some samplePlace := by
  decide +kernel

/-- A call does not look at image data. -/
theorem Places.withoutImages_perform {place other : Place}
    (h : place.withoutImages = other.withoutImages) (call : Option String × Call) :
    (perform place call).withoutImages = (perform other call).withoutImages := by
  have hperform (place : Place) :
      (perform place call).withoutImages = perform place.withoutImages call := by
    obtain ⟨currentUser, call⟩ := call
    cases call with
    | visit =>
      by_cases hmem : visitName currentUser place ∈ place.visitors
      · have hmemImages : visitName currentUser place.withoutImages ∈
            place.withoutImages.visitors := hmem
        rw [perform, perform, visit_of_mem hmem, visit_of_mem hmemImages]
      · have hmemImages : visitName currentUser place.withoutImages ∉
            place.withoutImages.visitors := hmem
        rw [perform, perform, visit_of_notMem hmem, visit_of_notMem hmemImages]
        rfl
    | rate rating => rfl
  rw [hperform, h, ← hperform]

/-- The `updateChildValues` of a place. -/
def Place.write (place : Place) : Write := ⟨place.key, dictionaryFromPlace place⟩

/-! ### The copies of one client -/

/-- The store is well formed, and the copies that the app holds have the property: its objects, and
the places that it is about to write. -/
structure App.Every (property : Place → Prop) (app : App) : Prop where
  store : app.WellFormed
  objects : ∀ ref < app.heap.next, property (app.heap.read ref)
  outbox : ∀ write ∈ app.outbox, ∃ place : Place, property place ∧ write = place.write

namespace App

variable {property later : Place → Prop} {app next : App}

theorem Every.mono (h : app.Every property) (hlater : ∀ place, property place → later place) :
    app.Every later :=
  ⟨h.store, fun ref href ↦ hlater _ (h.objects ref href), fun write hwrite ↦
    (h.outbox write hwrite).imp fun place hplace ↦ ⟨hlater place hplace.1, hplace.2⟩⟩

theorem WellFormed.writeBack (h : app.WellFormed) {ref : Ref} {changed : Place}
    (hkey : changed.key = (app.heap.read ref).key) : (app.writeBack ref changed).WellFormed :=
  h.of_key rfl rfl (app.heap.view_read_write _ Place.key hkey)

/-- A call that changes an object and writes its place, when the changed place has the property. -/
theorem Every.writeBack (h : app.Every property) {ref : Ref} {changed : Place}
    (hkey : changed.key = (app.heap.read ref).key) (hchanged : property changed) :
    (app.writeBack ref changed).Every property where
  store := h.store.writeBack hkey
  objects other hother := by
    by_cases hsame : other = ref
    · rw [hsame, App.writeBack, Heap.read_write_self]
      exact hchanged
    · rw [App.writeBack, Heap.read_write_of_ne _ _ hsame]
      exact h.objects other hother
  outbox write hwrite := by
    rcases List.mem_append.mp hwrite with hold | hnew
    · exact h.outbox write hold
    · exact ⟨changed, hchanged, List.mem_singleton.mp hnew⟩

theorem Every.visit (h : app.Every property) {ref : Ref}
    (hvisited : app.accepts ref = true → property (app.visited ref)) :
    (app.visit ref).2.Every property :=
  visit_rule (Every property) h fun haccepted ↦
    h.writeBack (Places.key_visit ..) (hvisited (accepts_iff.mpr haccepted))

theorem Every.rate (h : app.Every property) {ref : Ref} {rating : ℤ}
    (hrated : property (Places.rate app.currentUser (app.heap.read ref) rating)) :
    (app.rate ref rating).Every property :=
  h.writeBack rfl hrated

/-- Visits of different objects, each of which has the property after its visit. -/
theorem Every.visitAll (h : app.Every property) {places : List Ref} (hplaces : places.Nodup)
    (hvisited : ∀ place ∈ places, app.accepts place = true → property (app.visited place)) :
    (app.visitAll places).Every property := by
  induction places generalizing app with
  | nil =>
    rw [visitAll_nil]
    exact h
  | cons place rest ih =>
    rw [List.nodup_cons] at hplaces
    have hdisjoint : [place].Disjoint rest := by simpa using hplaces.1
    have hfirst : (app.visitAll [place]).Every property := by
      rw [visitAll_singleton]
      exact h.visit (hvisited place List.mem_cons_self)
    have hrest := ih hfirst hplaces.2 fun other hother ↦ ?_
    · rwa [visitAll_append hdisjoint] at hrest
    · have hne : other ∉ [place] := fun hmem ↦ hdisjoint hmem hother
      rw [accepts_visitAll_of_notMem hne, visited_visitAll_of_notMem hne]
      exact hvisited other (List.mem_cons_of_mem _ hother)

theorem Every.locationUpdated {distanceBetween : Point → Point → ℚ} (h : app.Every property)
    {fix : Fix} (view : Locator)
    (hvisited : ∀ place ∈ app.nearby distanceBetween fix.coordinate app.places,
      app.accepts place = true → property (app.visited place)) :
    (locationUpdated distanceBetween app view fix).1.Every property := by
  rw [h.store.locationUpdated_fst]
  exact h.visitAll (h.store.nodup.filter _) hvisited

/-- Assumes: a property that does not look at image data, and that the decoded place has. -/
theorem Every.handle (himages : ∀ place : Place, property place.withoutImages ↔ property place)
    (h : app.Every property) {event : Event}
    (hdecoded : ∀ place, Place.placeFromDictionary event.child event.key = some place →
      property place)
    (hhandled : app.handle event = some next) : next.Every property := by
  have hstore := h.store.handle hhandled
  obtain ⟨decoded, newPlace, places, requests, listPages, hplace, hsame, rfl⟩ :=
    exists_of_handle hhandled
  have hnew : property newPlace := by
    rw [← himages, hsame, himages]
    exact hdecoded decoded hplace
  refine ⟨hstore, fun ref href ↦ ?_, h.outbox⟩
  by_cases hfresh : ref = app.heap.next
  · simp only [hfresh, Heap.read_alloc_next]
    exact hnew
  · simp only [Heap.read_alloc_of_ne _ _ hfresh]
    exact h.objects ref (lt_of_le_of_ne (Nat.lt_succ_iff.mp href) hfresh)

end App

/-! ### The copies of a network -/

namespace Network

variable {ι : Type}

/-- A copy of a place that a client, the server or anything under way holds. -/
inductive Copy (network : Network ι) : Place → Prop
  | object (client : ι) (ref : Ref) (hlive : ref < (network.client client).app.heap.next) :
      Copy network ((network.client client).app.heap.read ref)
  | write (client : ι) (place : Place)
      (hmem : place.write ∈ (network.client client).app.outbox) : Copy network place
  | event (client : ι) (event : Event) (hmem : event ∈ (network.client client).inbox)
      (place : Place) (hdecoded : Place.placeFromDictionary event.child event.key = some place) :
      Copy network place
  | record (key : String) (record : Record) (hrecord : network.database key = some record)
      (place : Place) (hdecoded : Place.placeFromDictionary record.snapshot key = some place) :
      Copy network place

/-- What a network is at the start of a run: the stores are well formed, and the writes under way
encode places. -/
structure Ready (network : Network ι) : Prop where
  store : ∀ client, (network.client client).app.WellFormed
  encodes : ∀ client, ∀ write ∈ (network.client client).app.outbox, ∃ place : Place,
    write = place.write

/-- Every copy has the property. -/
structure Everywhere (property : Place → Prop) (network : Network ι) : Prop where
  client : ∀ client, (network.client client).app.Every property
  events : ∀ client, ∀ event ∈ (network.client client).inbox, ∀ place,
    Place.placeFromDictionary event.child event.key = some place → property place
  records : ∀ key record, network.database key = some record → ∀ place,
    Place.placeFromDictionary record.snapshot key = some place → property place

/-- A client calls `Places.visit` and `Places.rate` on objects that have been allocated. -/
def Live (network : Network ι) : Action ι → Prop
  | .visit client place | .rate client place _ => place < (network.client client).app.heap.next
  | _ => True

instance (network : Network ι) : DecidablePred network.Live
  | .visit _ _ | .rate _ _ _ => inferInstanceAs (Decidable (_ < _))
  | .locate _ _ | .apply _ _ | .deliver _ _ | .observe _ _ _ | .remove _ =>
    inferInstanceAs (Decidable True)

/-- The calls of a step that write a place, with the key of the place and the caller, in the order
in which they are made. -/
def calls (distanceBetween : Point → Point → ℚ) (network : Network ι) :
    Action ι → List (String × Option String × Call)
  | .visit client place =>
    let app := (network.client client).app
    if app.accepts place then [((app.heap.read place).key, app.currentUser, .visit)] else []
  | .rate client place rating =>
    let app := (network.client client).app
    [((app.heap.read place).key, app.currentUser, .rate rating)]
  | .locate client fix =>
    let app := (network.client client).app
    ((app.nearby distanceBetween fix.coordinate app.places).filter app.accepts).map fun place ↦
      ((app.heap.read place).key, app.currentUser, .visit)
  | _ => []

variable {property later : Place → Prop} {network next : Network ι}

theorem Ready.everywhere (h : network.Ready)
    (hcopies : ∀ place, network.Copy place → property place) : Everywhere property network where
  client client :=
    ⟨h.store client, fun ref href ↦ hcopies _ (.object client ref href), fun write hwrite ↦ by
      obtain ⟨place, rfl⟩ := h.encodes client write hwrite
      exact ⟨place, hcopies place (.write client place hwrite), rfl⟩⟩
  events client event hevent place hplace := hcopies place (.event client event hevent place hplace)
  records key record hrecord place hplace := hcopies place (.record key record hrecord place hplace)

/-- Assumes: a property that does not look at image data. -/
theorem Everywhere.of_copy
    (himages : ∀ place : Place, property place.withoutImages ↔ property place)
    (h : Everywhere property network) {place : Place} (hcopy : network.Copy place) :
    property place := by
  cases hcopy with
  | object client ref hlive => exact (h.client client).objects ref hlive
  | write client place hmem =>
    obtain ⟨written, hwritten, hsame⟩ := (h.client client).outbox _ hmem
    have hvalues := congrArg Write.values hsame
    rw [← himages, Place.withoutImages_eq_of_dictionaryFromPlace hvalues, himages]
    exact hwritten
  | event client event hmem place hdecoded => exact h.events client event hmem place hdecoded
  | record key record hrecord place hdecoded => exact h.records key record hrecord place hdecoded

/-- The record of a write, and the event that it raises, are decoded to the place written. -/
theorem property_of_updateChildValues
    (himages : ∀ place : Place, property place.withoutImages ↔ property place) {written : Place}
    (hwritten : property written) {record : Record} {place : Place}
    (hdecoded : Place.placeFromDictionary
      (record.updateChildValues (Place.dictionaryFromPlace written)).snapshot written.key =
        some place) : property place := by
  rw [Place.placeFromDictionary_updateChildValues] at hdecoded
  split_ifs at hdecoded
  rw [← Option.some.inj hdecoded]
  exact (himages written).mpr hwritten

theorem Everywhere.mono (h : Everywhere property network)
    (hlater : ∀ place, property place → later place) : Everywhere later network :=
  ⟨fun client ↦ (h.client client).mono hlater,
    fun client event hevent place hplace ↦ hlater place (h.events client event hevent place hplace),
    fun key record hrecord place hplace ↦ hlater place (h.records key record hrecord place hplace)⟩

theorem Everywhere.commit
    (himages : ∀ place : Place, property place.withoutImages ↔ property place)
    (h : Everywhere property network) {written : Place} (hwritten : property written) :
    Everywhere property (network.commit written.write) := by
  refine ⟨h.client, fun client event hevent place hplace ↦ ?_,
    fun key record hrecord place hplace ↦ ?_⟩
  · rcases List.mem_append.mp hevent with hold | hnew
    · exact h.events client event hold place hplace
    · rw [List.mem_singleton.mp hnew] at hplace
      exact property_of_updateChildValues himages hwritten hplace
  · by_cases hkey : key = written.key
    · have hself : (network.commit written.write).database written.key =
        some ((network.record written.key).updateChildValues written.write.values) :=
      database_commit_self written.write
      rw [hkey] at hrecord hplace
      rw [← Option.some.inj (hself.symm.trans hrecord)] at hplace
      exact property_of_updateChildValues himages hwritten hplace
    · rw [database_commit_of_ne hkey] at hrecord
      exact h.records key record hrecord place hplace

variable [DecidableEq ι]

theorem Everywhere.setClient (h : Everywhere property network) (client : ι) {changed : Client}
    (happ : changed.app.Every property)
    (hinbox : ∀ event ∈ changed.inbox, ∀ place,
      Place.placeFromDictionary event.child event.key = some place → property place) :
    Everywhere property (network.setClient client changed) :=
  ⟨forall_setClient (fun client ↦ client.app.Every property) happ h.client,
    forall_setClient (fun client ↦ ∀ event ∈ client.inbox, ∀ place,
      Place.placeFromDictionary event.child event.key = some place → property place) hinbox
      h.events, h.records⟩

variable (distanceBetween : Point → Point → ℚ)

/-- Assumes: a property of the copies before a step, and one of the copies after it that does not
look at image data. If the old property implies the new one, and every call of the step on an object
that has been allocated leads from the one to the other, every copy has the new property after the
step. -/
theorem Everywhere.step
    (himages : ∀ place : Place, later place.withoutImages ↔ later place)
    (h : Everywhere property network) {action : Action ι} (hlive : network.Live action)
    (hlater : ∀ place, property place → later place)
    (hcalls : ∀ place caller call, property place →
      (place.key, caller, call) ∈ network.calls distanceBetween action →
        later (Places.perform place (caller, call)))
    (hstep : network.step distanceBetween action = some next) : Everywhere later next := by
  have hold := h.mono hlater
  cases action with
  | visit client place =>
    obtain rfl := Option.some.inj hstep
    refine hold.setClient client ((hold.client client).visit fun haccepts ↦ ?_) (hold.events client)
    refine hcalls _ _ .visit ((h.client client).objects place hlive) ?_
    simp [calls, haccepts]
  | rate client place rating =>
    obtain rfl := Option.some.inj hstep
    refine hold.setClient client ((hold.client client).rate ?_) (hold.events client)
    exact hcalls _ _ (.rate rating) ((h.client client).objects place hlive) List.mem_cons_self
  | locate client fix =>
    obtain rfl := Option.some.inj hstep
    refine hold.setClient client
      ((hold.client client).locationUpdated _ fun place hnearby haccepts ↦ ?_) (hold.events client)
    have hplace := (h.client client).store.live place (List.mem_filter.mp hnearby).1
    refine hcalls _ _ .visit ((h.client client).objects place hplace) ?_
    exact List.mem_map.mpr ⟨place, List.mem_filter.mpr ⟨hnearby, haccepts⟩, rfl⟩
  | apply client index =>
    obtain ⟨write, hwrite, rfl⟩ := Option.map_eq_some_iff.mp hstep
    obtain ⟨written, hwritten, rfl⟩ :=
      (hold.client client).outbox write (List.mem_of_getElem? hwrite)
    have hstore := (h.client client).store
    have hchanged : Everywhere later (network.setClient client
        { network.client client with
          app := { (network.client client).app with
            outbox := (network.client client).app.outbox.eraseIdx index } }) :=
      hold.setClient client ⟨⟨hstore.live, hstore.keys⟩, (hold.client client).objects,
        fun other hother ↦ (hold.client client).outbox other (List.mem_of_mem_eraseIdx hother)⟩
        (hold.events client)
    exact hchanged.commit himages hwritten
  | deliver client index =>
    obtain ⟨event, hevent, hhandled⟩ := Option.bind_eq_some_iff.mp hstep
    obtain ⟨app, happ, rfl⟩ := Option.map_eq_some_iff.mp hhandled
    have hdecoded := hold.events client event (List.mem_of_getElem? hevent)
    exact hold.setClient client ((hold.client client).handle himages hdecoded happ)
      fun other hother ↦ hold.events client other (List.mem_of_mem_eraseIdx hother)
  | observe client kind key =>
    obtain ⟨record, hrecord, rfl⟩ := Option.map_eq_some_iff.mp hstep
    refine hold.setClient client (hold.client client) fun event hevent place hplace ↦ ?_
    rcases List.mem_append.mp hevent with hbefore | hnew
    · exact hold.events client event hbefore place hplace
    · rw [List.mem_singleton.mp hnew] at hplace
      exact hold.records key record hrecord place hplace
  | remove key =>
    obtain rfl := Option.some.inj hstep
    refine ⟨hold.client, hold.events, fun other record hrecord ↦ ?_⟩
    by_cases hother : other = key
    · rw [hother] at hrecord
      simp at hrecord
    · exact hold.records other record (by simpa [hother] using hrecord)

/-! ### The descent of a copy -/

/-- Image data aside, the place is a copy of the start after some of the calls made on it, in their
order. -/
def Descends (start : Network ι) (made : List (String × Option String × Call)) (place : Place) :
    Prop :=
  ∃ (old : Place) (calls : List (Option String × Call)), start.Copy old ∧
    (calls.map fun call ↦ (place.key, call)).Sublist made ∧
    place.withoutImages = (calls.foldl Places.perform old).withoutImages

omit [DecidableEq ι] in
theorem descends_of_copy {start : Network ι} {place : Place} (h : start.Copy place) :
    Descends start [] place :=
  ⟨place, [], h, List.Sublist.refl _, rfl⟩

omit [DecidableEq ι] in
theorem descends_withoutImages {start : Network ι} {made : List (String × Option String × Call)}
    (place : Place) : Descends start made place.withoutImages ↔ Descends start made place := Iff.rfl

omit [DecidableEq ι] in
theorem Descends.append {start : Network ι} {made : List (String × Option String × Call)}
    {place : Place} (h : Descends start made place)
    (further : List (String × Option String × Call)) : Descends start (made ++ further) place := by
  obtain ⟨old, calls, hcopy, hcalls, hplace⟩ := h
  exact ⟨old, calls, hcopy, hcalls.trans (List.sublist_append_left ..), hplace⟩

omit [DecidableEq ι] in
/-- One more call. -/
theorem Descends.perform {start : Network ι} {made further : List (String × Option String × Call)}
    {place : Place} (h : Descends start made place) {call : Option String × Call}
    (hcall : (place.key, call) ∈ further) :
    Descends start (made ++ further) (Places.perform place call) := by
  obtain ⟨old, calls, hcopy, hcalls, hplace⟩ := h
  refine ⟨old, calls ++ [call], hcopy, ?_, ?_⟩
  · rw [List.map_append, List.map_singleton, Places.key_perform]
    exact hcalls.append (List.singleton_sublist.mpr hcall)
  · rw [List.foldl_append, List.foldl_cons, List.foldl_nil]
    exact Places.withoutImages_perform hplace call

/-- Every copy after a run descends from one at the start. Assumes: well formed stores at the start,
writes under way that encode places, and calls on objects that have been allocated. -/
theorem everywhere_descends {start final : Network ι} (hready : start.Ready)
    {actions : List (Action ι)}
    (hlive : PartialRun.Guarded (step distanceBetween) Live start actions)
    (hrun : PartialRun.run (step distanceBetween) start actions = some final) :
    Everywhere
      (Descends start (PartialRun.trace (step distanceBetween) (calls distanceBetween) start
        actions)) final := by
  have hkeep (made : List (String × Option String × Call)) (network : Network ι)
      (action : Action ι) (next : Network ι) (h : Everywhere (Descends start made) network)
      (hguard : network.Live action) (hstep : network.step distanceBetween action = some next) :
      Everywhere (Descends start (made ++ network.calls distanceBetween action)) next :=
    h.step distanceBetween descends_withoutImages hguard (fun _ hplace ↦ hplace.append _)
      (fun _ _ _ hplace hcall ↦ hplace.perform hcall) hstep
  exact PartialRun.run_invariant_trace hkeep (hready.everywhere fun _ ↦ descends_of_copy) hlive
    hrun

end Network

end BeenHere
