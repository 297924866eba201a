import BeenHere.Library.PartialRun
import BeenHere.Network
import BeenHere.Pages

/-!
# One device

The network of one user, who visits through the locator and rates through open detail pages, with no
other writer. `anyStep` lets the user act at any time. `step` takes from these the steps in which
the user acts only when every echo of the last action has been delivered, so that the entries of the
store decode the records whenever the user acts. `moves_of_anyStep` is the inversion of a step.

When the user acts only while nothing is under way, the ratings are never lost, whatever objects
they go through (`Echoing`): the entries of the store have the last rating of the user for every
place, and a visit goes through an entry.
-/

set_option autoImplicit false
set_option relaxedAutoImplicit false

namespace BeenHere

open Firebase ObjectHeap

/-- A network with one client, the keys under which the record has listed the user so far, and the
last rating that the user has submitted for each place. -/
structure Device where
  network : Network Unit
  listed : String → Bool
  rated : String → Option ℤ

/-- Whatever the record, it lists the user after the write. -/
def Write.Lists (uid : String) (write : Write) : Prop :=
  ∀ record : Record, (record.updateChildValues write.values).listsVisitor uid = true

/-- Whatever the record, it has the rating of the user after the write. -/
def Write.Rates (uid : String) (rating : ℤ) (write : Write) : Prop :=
  ∀ record : Record, (record.updateChildValues write.values).ratingOf uid = some (.number rating)

namespace Device

inductive Action
  | openDetail (page : PageId) (row : ℕ)
  | closeDetail (page : PageId)
  | rate (page : PageId) (rating : ℤ)
  | locate (fix : Fix)
  | apply
  | deliver

def app (device : Device) : App := (device.network.client ()).app

def inbox (device : Device) : List Event := (device.network.client ()).inbox

/-- Nothing is under way: every write has been applied and every event has been delivered. -/
def Quiet (device : Device) : Prop := device.app.outbox = [] ∧ device.inbox = []

def setApp (device : Device) (app : App) : Device :=
  { device with network := device.network.setClient () { device.network.client () with app } }

section Step

variable (distanceBetween : Point → Point → ℚ) (uid : String)

/-- A step of a user who acts at any time. -/
def anyStep (device : Device) : Action → Option Device
  | .openDetail page row => (device.app.openDetail page row).map device.setApp
  | .closeDetail page => some (device.setApp (device.app.closeDetail page))
  | .rate page rating =>
    (device.app.detailPages page).bind fun detail ↦
      (device.network.step distanceBetween (.rate () detail.detailPlace rating)).map fun network ↦
        { device with
          network
          rated := Function.update device.rated (device.app.heap.read detail.detailPlace).key
            (some rating) }
  | .locate fix =>
    (device.network.step distanceBetween (.locate () fix)).map fun network ↦
      { device with network }
  | .apply =>
    (device.network.step distanceBetween (.apply () 0)).map fun network ↦
      { device with
        network
        listed := fun key ↦ device.listed key || (network.record key).listsVisitor uid }
  | .deliver =>
    (device.network.step distanceBetween (.deliver () 0)).map fun network ↦ { device with network }

/-- An action of the user is taken when nothing is under way. -/
def ActsWhenQuiet (device : Device) : Action → Prop
  | .apply | .deliver => True
  | .openDetail _ _ | .closeDetail _ | .rate _ _ | .locate _ => device.Quiet

instance (device : Device) : Decidable device.Quiet :=
  decidable_of_iff (device.app.outbox.isEmpty = true ∧ device.inbox.isEmpty = true)
    (and_congr List.isEmpty_iff List.isEmpty_iff)

instance (device : Device) : DecidablePred device.ActsWhenQuiet
  | .apply | .deliver => inferInstanceAs (Decidable True)
  | .openDetail _ _ | .closeDetail _ | .rate _ _ | .locate _ =>
    inferInstanceAs (Decidable device.Quiet)

/-- A step of a user who acts only when nothing is under way. -/
def step (device : Device) (action : Action) : Option Device :=
  if device.ActsWhenQuiet action then device.anyStep distanceBetween uid action else none

variable {device next : Device}

/-- The two kinds of steps differ in when the user acts. -/
theorem step_eq_some_iff {action : Action} :
    device.step distanceBetween uid action = some next ↔
      ActsWhenQuiet device action ∧ device.anyStep distanceBetween uid action = some next := by
  unfold step
  split_ifs with hquiet
  · exact (and_iff_right hquiet).symm
  · exact iff_of_false id fun h ↦ hquiet h.1

end Step

@[simp] theorem app_setApp (device : Device) (app : App) : (device.setApp app).app = app := by
  simp [setApp, Device.app]

@[simp] theorem inbox_setApp (device : Device) (app : App) :
    (device.setApp app).inbox = device.inbox := by
  simp [setApp, Device.inbox]

/-! ### What a step does -/

section Moves

variable (distanceBetween : Point → Point → ℚ) (uid : String) (device next : Device)

/-- What an action of the user leaves as it is. -/
structure Stays : Prop where
  database : next.network.database = device.network.database
  inbox : next.inbox = device.inbox
  listed : next.listed = device.listed

/-- A change of image data, requests and pages. -/
structure Browses : Prop extends Stays device next where
  rated : next.rated = device.rated
  user : next.app.currentUser = device.app.currentUser
  places : next.app.places = device.app.places
  outbox : next.app.outbox = device.app.outbox
  allocated : next.app.heap.next = device.app.heap.next
  same : ∀ ref, (next.app.heap.read ref).withoutImages = (device.app.heap.read ref).withoutImages

/-- A rating of an object. -/
structure Rates (ref : Ref) (rating : ℤ) : Prop extends Stays device next where
  rated : next.rated =
    Function.update device.rated (device.app.heap.read ref).key (some rating)
  app : next.app = device.app.rate ref rating

/-- The visits of the locator. -/
structure Locates (fix : Fix) : Prop extends Stays device next where
  rated : next.rated = device.rated
  app : ∃ view, next.app = (locationUpdated distanceBetween device.app view fix).1

/-- The server applies the oldest write. -/
structure Applies (write : Write) (rest : List Write) : Prop where
  outbox : device.app.outbox = write :: rest
  database : next.network.database = Function.update device.network.database write.key
    (some ((device.network.record write.key).updateChildValues write.values))
  inbox : next.inbox = device.inbox ++
    [⟨if (device.network.database write.key).isSome then .childChanged else .childAdded,
      write.key, (next.network.record write.key).snapshot⟩]
  listed : next.listed = fun key ↦
    device.listed key || (next.network.record key).listsVisitor uid
  rated : next.rated = device.rated
  app : next.app = { device.app with outbox := rest }

/-- The oldest event is delivered. -/
structure Delivers (event : Event) (rest : List Event) : Prop where
  pending : device.inbox = event :: rest
  database : next.network.database = device.network.database
  inbox : next.inbox = rest
  listed : next.listed = device.listed
  rated : next.rated = device.rated
  app : device.app.handle event = some next.app

def Moves : Action → Prop
  | .openDetail _ _ | .closeDetail _ => Browses device next
  | .rate page rating => ∃ detail, device.app.detailPages page = some detail ∧
    Rates device next detail.detailPlace rating
  | .locate fix => Locates distanceBetween device next fix
  | .apply => ∃ write rest, Applies uid device next write rest
  | .deliver => ∃ event rest, Delivers device next event rest

end Moves

variable {uid : String} {device next : Device}

theorem Stays.record (h : Stays device next) (key : String) :
    next.network.record key = device.network.record key := by
  rw [Network.record, h.database, Network.record]

theorem Browses.key (h : Browses device next) (ref : Ref) :
    (next.app.heap.read ref).key = (device.app.heap.read ref).key :=
  Place.key_eq_of_withoutImages (h.same ref)

section Applies

variable {write : Write} {rest : List Write}

theorem Applies.record_self (h : Applies uid device next write rest) :
    next.network.record write.key =
      (device.network.record write.key).updateChildValues write.values := by
  rw [Network.record, h.database, Function.update_self, Option.getD_some]

theorem Applies.record_of_ne (h : Applies uid device next write rest) {key : String}
    (hne : key ≠ write.key) : next.network.record key = device.network.record key := by
  rw [Network.record, h.database, Function.update_of_ne hne, Network.record]

theorem Applies.write_mem (h : Applies uid device next write rest) :
    write ∈ device.app.outbox := by
  rw [h.outbox]
  exact List.mem_cons_self

theorem Applies.rest_subset (h : Applies uid device next write rest) :
    rest ⊆ device.app.outbox := by
  rw [h.outbox]
  exact List.subset_cons_self ..

end Applies

section Delivers

variable {event : Event} {rest : List Event}

theorem Delivers.record (h : Delivers device next event rest) (key : String) :
    next.network.record key = device.network.record key := by
  rw [Network.record, h.database, Network.record]

theorem Delivers.event_mem (h : Delivers device next event rest) : event ∈ device.inbox := by
  rw [h.pending]
  exact List.mem_cons_self

theorem Delivers.rest_subset (h : Delivers device next event rest) : rest ⊆ device.inbox := by
  rw [h.pending]
  exact List.subset_cons_self ..

end Delivers

/-- The inversion of a step. -/
theorem moves_of_anyStep (distanceBetween : Point → Point → ℚ) {action : Action}
    (hstep : device.anyStep distanceBetween uid action = some next) :
    Moves distanceBetween uid device next action := by
  cases action with
  | openDetail page row =>
    obtain ⟨app, happ, rfl⟩ := Option.map_eq_some_iff.mp hstep
    obtain ⟨_, _, heap, requests, _, _, hsame, _, rfl⟩ := App.exists_of_openDetail happ
    exact ⟨⟨rfl, inbox_setApp .., rfl⟩, rfl, by simp, by simp, by simp, by simpa using hsame.1,
      by simpa using hsame.2.1⟩
  | closeDetail page =>
    obtain rfl := Option.some.inj hstep
    exact ⟨⟨rfl, inbox_setApp .., rfl⟩, rfl, by simp [App.closeDetail],
      by simp [App.closeDetail], by simp [App.closeDetail], by simp [App.closeDetail],
      by simp [App.closeDetail]⟩
  | rate page rating =>
    obtain ⟨detail, hdetail, hnetwork⟩ := Option.bind_eq_some_iff.mp hstep
    obtain ⟨network, hcall, rfl⟩ := Option.map_eq_some_iff.mp hnetwork
    obtain rfl := Option.some.inj hcall
    exact ⟨detail, hdetail, ⟨rfl, rfl, rfl⟩, rfl, rfl⟩
  | locate fix =>
    obtain rfl := Option.some.inj hstep
    exact ⟨⟨rfl, rfl, rfl⟩, rfl, _, rfl⟩
  | apply =>
    obtain ⟨network, hnetwork, rfl⟩ := Option.map_eq_some_iff.mp hstep
    obtain ⟨write, hwrite, rfl⟩ := Option.map_eq_some_iff.mp hnetwork
    have hhead : device.app.outbox[0]? = some write := hwrite
    cases houtbox : device.app.outbox with
    | nil =>
      rw [houtbox] at hhead
      cases hhead
    | cons head rest =>
      rw [houtbox] at hhead
      obtain rfl := Option.some.inj hhead
      have hrest : device.app.outbox.eraseIdx 0 = rest := by rw [houtbox]; rfl
      refine ⟨head, rest, houtbox, rfl, ?_, rfl, rfl, by rw [← hrest]; rfl⟩
      rw [Network.record_commit_self]
      rfl
  | deliver =>
    obtain ⟨network, hnetwork, rfl⟩ := Option.map_eq_some_iff.mp hstep
    obtain ⟨event, hevent, hhandled⟩ := Option.bind_eq_some_iff.mp hnetwork
    obtain ⟨app, happ, rfl⟩ := Option.map_eq_some_iff.mp hhandled
    have hhead : device.inbox[0]? = some event := hevent
    cases hinbox : device.inbox with
    | nil =>
      rw [hinbox] at hhead
      cases hhead
    | cons head rest =>
      rw [hinbox] at hhead
      obtain rfl := Option.some.inj hhead
      have hrest : device.inbox.eraseIdx 0 = rest := by rw [hinbox]; rfl
      exact ⟨head, rest, hinbox, rfl, by rw [← hrest]; rfl, rfl, rfl, happ⟩

theorem moves_of_step (distanceBetween : Point → Point → ℚ) {action : Action}
    (hstep : device.step distanceBetween uid action = some next) :
    ActsWhenQuiet device action ∧ Moves distanceBetween uid device next action :=
  ((step_eq_some_iff distanceBetween uid).mp hstep).imp_right (moves_of_anyStep distanceBetween)

/-! ### The ratings and the echoes -/

/-- The invariant of the ratings. A pending write keeps the last rating; an entry without a pending
write or event decodes its record; the last event for a node has the snapshot of its record; and a
node is created only by the last thing under way, for a place that the store does not hold. -/
structure Echoing (uid : String) (device : Device) : Prop where
  signedIn : device.app.currentUser = some uid
  store : device.app.WellFormed
  rates : ∀ key rating, device.rated key = some rating →
    (∀ write ∈ device.app.outbox, write.key = key → write.Rates uid rating) ∧
    ((∀ write ∈ device.app.outbox, write.key ≠ key) →
      (device.network.record key).ratingOf uid = some (.number rating))
  mirror : ∀ ref ∈ device.app.places,
    (∀ write ∈ device.app.outbox, write.key ≠ (device.app.heap.read ref).key) →
    (∀ event ∈ device.inbox, event.key ≠ (device.app.heap.read ref).key) →
    Place.placeFromDictionary
      (device.network.record (device.app.heap.read ref).key).snapshot
      (device.app.heap.read ref).key = some (device.app.heap.read ref).withoutImages
  latest : ∀ key event, (device.inbox.filter fun event ↦ event.key = key).getLast? = some event →
    event.child = (device.network.record key).snapshot
  writes : ∀ write ∈ device.app.outbox, (device.network.database write.key).isSome ∨
    device.app.outbox = [write] ∧ device.inbox = [] ∧
      App.containsKey device.app.heap device.app.places write.key = false
  events : ∀ event ∈ device.inbox, event.kind = .childChanged ∨
    device.inbox = [event] ∧ device.app.outbox = [] ∧
      App.containsKey device.app.heap device.app.places event.key = false

/-- Assumes: a device whose user is signed in, on which nothing is under way, whose entries have
different keys and decode their records, and for which no rating is noted. -/
theorem echoing_of_quiet (hsigned : device.app.currentUser = some uid) (hquiet : device.Quiet)
    (hstore : device.app.WellFormed)
    (hmirror : ∀ ref ∈ device.app.places,
      Place.placeFromDictionary (device.network.record (device.app.heap.read ref).key).snapshot
        (device.app.heap.read ref).key = some (device.app.heap.read ref).withoutImages)
    (hrated : device.rated = fun _ ↦ none) : Echoing uid device :=
  ⟨hsigned, hstore, by simp [hrated], fun ref href _ _ ↦ hmirror ref href, by simp [hquiet.2],
    by simp [hquiet.1], by simp [hquiet.2]⟩

/-- When nothing is under way, every entry decodes its record. -/
theorem Echoing.decodes (h : Echoing uid device) (hquiet : device.Quiet) {ref : Ref}
    (href : ref ∈ device.app.places) :
    Place.placeFromDictionary
      (device.network.record (device.app.heap.read ref).key).snapshot
      (device.app.heap.read ref).key = some (device.app.heap.read ref).withoutImages :=
  h.mirror ref href (by simp [hquiet.1]) (by simp [hquiet.2])

theorem placeFromDictionary_absent (key : String) :
    Place.placeFromDictionary Record.absent.snapshot key = none := rfl

/-- The node of an entry exists. -/
theorem Echoing.isSome (h : Echoing uid device) (hquiet : device.Quiet) {ref : Ref}
    (href : ref ∈ device.app.places) :
    (device.network.database (device.app.heap.read ref).key).isSome := by
  by_contra hnone
  rw [Option.not_isSome_iff_eq_none] at hnone
  have hdecodes := h.decodes hquiet href
  rw [Network.record, hnone, Option.getD_none, placeFromDictionary_absent] at hdecodes
  cases hdecodes

/-- An entry has the ratings of its record. -/
theorem Echoing.lookup_ratings (h : Echoing uid device) (hquiet : device.Quiet) {ref : Ref}
    (href : ref ∈ device.app.places) {user : String} {rating : ℤ}
    (hrating : (device.network.record (device.app.heap.read ref).key).ratingOf user =
      some (.number rating)) :
    (device.app.heap.read ref).ratings.lookup user = some rating :=
  Place.lookup_ratings_of_decodes (Place.decodes_iff.mp (h.decodes hquiet href)) hrating

theorem Echoing.browse (h : Echoing uid device) (hquiet : device.Quiet)
    (hbrowses : Browses device next) : Echoing uid next := by
  have houtbox := hbrowses.outbox.trans hquiet.1
  have hinbox := hbrowses.inbox.trans hquiet.2
  refine ⟨hbrowses.user.trans h.signedIn,
    h.store.of_key hbrowses.places hbrowses.allocated hbrowses.key, ?_, ?_, by simp [hinbox],
    by simp [houtbox], by simp [hinbox]⟩
  · intro key rating hvalue
    rw [hbrowses.rated] at hvalue
    refine ⟨by simp [houtbox], fun _ ↦ ?_⟩
    rw [hbrowses.record]
    exact (h.rates key rating hvalue).2 (by simp [hquiet.1])
  · intro ref href _ _
    rw [hbrowses.places] at href
    rw [hbrowses.record, hbrowses.key, hbrowses.same]
    exact h.decodes hquiet href

/-- What is known of the app while the locator visits places, from a state in which nothing is under
way. -/
structure Visiting (uid : String) (device : Device) (app : App) : Prop where
  user : app.currentUser = some uid
  places : app.places = device.app.places
  next : app.heap.next = device.app.heap.next
  key : ∀ ref, (app.heap.read ref).key = (device.app.heap.read ref).key
  ratings : ∀ ref, (app.heap.read ref).ratings = (device.app.heap.read ref).ratings
  writes : ∀ write ∈ app.outbox, write.Lists uid ∧ ∃ ref ∈ device.app.places,
    write.key = (device.app.heap.read ref).key ∧ ∀ record : Record,
      (record.updateChildValues write.values).ratingOf uid =
        ((device.app.heap.read ref).ratings.lookup uid).map fun rating : ℤ ↦ .number rating
  frame : ∀ ref, (∀ write ∈ app.outbox, write.key ≠ (device.app.heap.read ref).key) →
    app.heap.read ref = device.app.heap.read ref

theorem Visiting.visit {app : App} (h : Visiting uid device app) {place : Ref}
    (hplace : place ∈ device.app.places) : Visiting uid device (app.visit place).2 := by
  refine App.visit_rule (Visiting uid device) h fun hmem ↦ ?_
  have hname : Places.visitName app.currentUser (app.heap.read place) = uid := by
    rw [h.user]
    rfl
  have hkey : (Places.visit app.currentUser (app.heap.read place)).2.key =
      (device.app.heap.read place).key := (Places.key_visit ..).trans (h.key place)
  refine ⟨h.user, h.places, h.next,
    fun ref ↦ (app.heap.view_read_write _ Place.key (Places.key_visit ..) ref).trans (h.key ref),
    fun ref ↦ (app.heap.view_read_write _ Place.ratings (Places.ratings_visit ..) ref).trans
      (h.ratings ref), fun write hwrite ↦ ?_, fun ref hother ↦ ?_⟩
  · rcases List.mem_append.mp hwrite with hold | hnew
    · exact h.writes write hold
    · rw [List.mem_singleton.mp hnew]
      refine ⟨fun record ↦ ?_, place, hplace, hkey, fun record ↦ ?_⟩
      · rw [listsVisitor_updateChildValues, Places.visit_of_notMem hmem, hname]
        exact List.mem_append_right _ List.mem_cons_self
      · rw [ratingOf_updateChildValues, Places.ratings_visit, ← h.ratings]
  · have hne : ref ≠ place := by
      rintro rfl
      exact hother _ (List.mem_append_right _ List.mem_cons_self) hkey
    rw [App.writeBack, Heap.read_write_of_ne _ _ hne]
    exact h.frame ref fun write hwrite ↦ hother write (List.mem_append_left _ hwrite)

theorem Locates.visiting {distanceBetween : Point → Point → ℚ} {fix : Fix}
    (hlocates : Locates distanceBetween device next fix)
    (hsigned : device.app.currentUser = some uid) (hquiet : device.Quiet) :
    Visiting uid device next.app := by
  have hstart : Visiting uid device device.app :=
    ⟨hsigned, rfl, rfl, fun _ ↦ rfl, fun _ ↦ rfl, by simp [hquiet.1], fun _ _ ↦ rfl⟩
  obtain ⟨view, happ⟩ := hlocates.app
  rw [happ]
  exact locationUpdated_app distanceBetween (Visiting uid device)
    (fun _ hother place hplace _ ↦ hother.visit hplace) hstart view

theorem Echoing.locate {distanceBetween : Point → Point → ℚ} {fix : Fix}
    (h : Echoing uid device) (hquiet : device.Quiet)
    (hlocates : Locates distanceBetween device next fix) : Echoing uid next := by
  have hvisiting := hlocates.visiting h.signedIn hquiet
  have hinbox := hlocates.inbox.trans hquiet.2
  refine ⟨hvisiting.user, h.store.of_key hvisiting.places hvisiting.next hvisiting.key, ?_, ?_,
    by simp [hinbox], ?_, by simp [hinbox]⟩
  · intro key rating hvalue
    rw [hlocates.rated] at hvalue
    have hold := (h.rates key rating hvalue).2 (by simp [hquiet.1])
    refine ⟨fun write hwrite hkey record ↦ ?_, fun _ ↦ by rw [hlocates.record]; exact hold⟩
    obtain ⟨_, ref, href, hsame, hratings⟩ := hvisiting.writes write hwrite
    rw [hratings, h.lookup_ratings hquiet href (by rw [← hsame, hkey]; exact hold)]
    rfl
  · intro ref href hwrites _
    rw [hvisiting.places] at href
    simp only [hvisiting.key] at hwrites
    rw [hvisiting.frame ref hwrites, hlocates.record]
    exact h.decodes hquiet href
  · intro write hwrite
    obtain ⟨_, ref, href, hsame, _⟩ := hvisiting.writes write hwrite
    rw [hlocates.database, hsame]
    exact Or.inl (h.isSome hquiet href)

/-- A rating changes the object of the page and writes its place. -/
theorem Echoing.rate (h : Echoing uid device) (hquiet : device.Quiet) {ref : Ref} {rating : ℤ}
    (hrates : Rates device next ref rating) : Echoing uid next := by
  obtain ⟨rated, hplace⟩ : ∃ rated,
      rated = Places.rate device.app.currentUser (device.app.heap.read ref) rating := ⟨_, rfl⟩
  have hkeyRated : rated.key = (device.app.heap.read ref).key := by rw [hplace]; rfl
  have houtbox : next.app.outbox = [⟨rated.key, Place.dictionaryFromPlace rated⟩] := by
    rw [hrates.app, App.rate, hquiet.1, hplace]
    rfl
  have hheap : next.app.heap = device.app.heap.write ref rated := by rw [hrates.app, hplace]; rfl
  have hplaces : next.app.places = device.app.places := by rw [hrates.app]; rfl
  have hinbox := hrates.inbox.trans hquiet.2
  have hkey (other : Ref) : (next.app.heap.read other).key = (device.app.heap.read other).key := by
    rw [hheap]
    exact device.app.heap.view_read_write _ Place.key hkeyRated other
  have hvalue : rated.ratings.lookup uid = some rating := by
    rw [hplace, h.signedIn]
    exact Finmap.lookup_insert _
  have hnext : next.app.heap.next = device.app.heap.next := by rw [hheap, Heap.next_write]
  refine ⟨by rw [hrates.app]; exact h.signedIn, h.store.of_key hplaces hnext hkey, ?_, ?_,
    by simp [hinbox], ?_, by simp [hinbox]⟩
  · intro key value hnoted
    rw [hrates.rated] at hnoted
    by_cases hsame : key = (device.app.heap.read ref).key
    · rw [hsame, Function.update_self, Option.some.injEq] at hnoted
      refine ⟨fun write hwrite _ record ↦ ?_, fun hnone ↦ ?_⟩
      · rw [houtbox, List.mem_singleton] at hwrite
        rw [hwrite, ratingOf_updateChildValues, hvalue, hnoted]
        rfl
      · have hpending : (⟨rated.key, Place.dictionaryFromPlace rated⟩ : Write) ∈
            next.app.outbox := by
          rw [houtbox]
          exact List.mem_cons_self
        exact absurd (hkeyRated.trans hsame.symm) (hnone _ hpending)
    · rw [Function.update_of_ne hsame] at hnoted
      refine ⟨fun write hwrite hkeyWrite ↦ ?_, fun _ ↦ ?_⟩
      · rw [houtbox, List.mem_singleton] at hwrite
        rw [hwrite] at hkeyWrite
        exact absurd (hkeyWrite.symm.trans hkeyRated) hsame
      · rw [hrates.record]
        exact (h.rates key value hnoted).2 (by simp [hquiet.1])
  · intro other hother hwrites _
    rw [hplaces] at hother
    rw [hkey] at hwrites
    have hne : other ≠ ref := by
      rintro rfl
      exact hwrites _ (by rw [houtbox]; exact List.mem_cons_self) hkeyRated
    rw [hrates.record, hheap, Heap.read_write_of_ne _ _ hne]
    exact h.decodes hquiet hother
  · intro write hwrite
    rw [houtbox, List.mem_singleton] at hwrite
    by_cases hnode : (device.network.database write.key).isSome
    · exact Or.inl (hrates.database ▸ hnode)
    · refine Or.inr ⟨by rw [houtbox, hwrite], hinbox, App.containsKey_eq_false_iff.mpr ?_⟩
      intro other hother hsame
      rw [hplaces] at hother
      rw [hkey] at hsame
      exact hnode (hsame ▸ h.isSome hquiet hother)

theorem Echoing.apply (h : Echoing uid device) {write : Write} {rest : List Write}
    (happlies : Applies uid device next write rest) : Echoing uid next := by
  have houtbox : next.app.outbox = rest := by rw [happlies.app]
  refine ⟨by rw [happlies.app]; exact h.signedIn,
    by rw [happlies.app]; exact ⟨h.store.live, h.store.keys⟩, ?_, ?_, ?_, ?_, ?_⟩
  · intro key rating hvalue
    rw [happlies.rated] at hvalue
    obtain ⟨hwrites, hnone⟩ := h.rates key rating hvalue
    rw [houtbox]
    refine ⟨fun other hwrite ↦ hwrites other (happlies.rest_subset hwrite), fun hrest ↦ ?_⟩
    by_cases hkey : key = write.key
    · rw [hkey, happlies.record_self]
      exact hwrites write happlies.write_mem hkey.symm _
    · rw [happlies.record_of_ne hkey]
      refine hnone fun other hwrite ↦ ?_
      rw [happlies.outbox] at hwrite
      rcases List.mem_cons.mp hwrite with rfl | htail
      · exact Ne.symm hkey
      · exact hrest other htail
  · intro ref href hwrites hevents
    simp only [happlies.app] at href hwrites hevents ⊢
    have hkey : (device.app.heap.read ref).key ≠ write.key := fun hkey ↦
      hevents _ (by rw [happlies.inbox]; exact List.mem_append_right _ List.mem_cons_self)
        hkey.symm
    rw [happlies.record_of_ne hkey]
    refine h.mirror ref href (fun other hwrite ↦ ?_) fun event hevent ↦
      hevents event (by rw [happlies.inbox]; exact List.mem_append_left _ hevent)
    rw [happlies.outbox] at hwrite
    rcases List.mem_cons.mp hwrite with rfl | htail
    · exact Ne.symm hkey
    · exact hwrites other htail
  · intro key event hlast
    rw [happlies.inbox, List.filter_append] at hlast
    by_cases hkey : key = write.key
    · simp only [hkey, List.filter_cons_of_pos, decide_true, List.filter_nil,
        List.getLast?_append, List.getLast?_singleton, Option.some_or, Option.some.injEq] at hlast
      rw [← hlast, hkey]
    · have hnil : ([⟨if (device.network.database write.key).isSome then .childChanged
          else .childAdded, write.key, (next.network.record write.key).snapshot⟩] :
          List Event).filter (fun event ↦ event.key = key) = [] := by
        simp [Ne.symm hkey]
      rw [hnil, List.append_nil] at hlast
      rw [happlies.record_of_ne hkey]
      exact h.latest key event hlast
  · intro other hwrite
    rw [houtbox] at hwrite
    left
    by_cases hkey : other.key = write.key
    · rw [happlies.database, hkey, Function.update_self]
      rfl
    · rw [happlies.database, Function.update_of_ne hkey]
      refine (h.writes other (happlies.rest_subset hwrite)).resolve_right fun ⟨halone, _⟩ ↦ ?_
      rw [happlies.outbox, List.cons.injEq] at halone
      rw [halone.2] at hwrite
      cases hwrite
  · intro event hevent
    rw [happlies.inbox] at hevent
    rcases List.mem_append.mp hevent with hold | hnew
    · refine Or.inl ((h.events event hold).resolve_right fun ⟨_, hempty, _⟩ ↦ ?_)
      rw [happlies.outbox] at hempty
      cases hempty
    rw [List.mem_singleton] at hnew
    by_cases hnode : (device.network.database write.key).isSome
    · exact Or.inl (by rw [hnew]; exact if_pos hnode)
    · obtain ⟨halone, hempty, habsent⟩ :=
        (h.writes write happlies.write_mem).resolve_left hnode
      rw [happlies.outbox, List.cons.injEq] at halone
      refine Or.inr ⟨by rw [happlies.inbox, hempty, hnew]; rfl, houtbox.trans halone.2, ?_⟩
      rw [happlies.app, hnew]
      exact habsent

/-- The last entry of a list with a property is the last one of a longer list. -/
theorem getLast?_filter_of_tail {α : Type*} {select : α → Bool} {first last : α} {rest : List α}
    (h : (rest.filter select).getLast? = some last) :
    ((first :: rest).filter select).getLast? = some last := by
  have hnonempty : rest.filter select ≠ [] := by
    intro hnil
    rw [hnil] at h
    cases h
  rw [List.filter_cons]
  split
  · rw [List.getLast?_cons_of_ne_nil hnonempty]
    exact h
  · exact h

theorem Echoing.deliver (h : Echoing uid device) {event : Event} {rest : List Event}
    (hdelivers : Delivers device next event rest) : Echoing uid next := by
  have hkind : event.kind = .childChanged ∨
      App.containsKey device.app.heap device.app.places event.key = false :=
    (h.events event hdelivers.event_mem).imp_right fun ⟨_, _, habsent⟩ ↦ habsent
  have hentries {ref : Ref} (href : ref ∈ next.app.places) :=
    App.mem_places_of_handle h.store hkind hdelivers.app href
  obtain ⟨decoded, newPlace, places, requests, listPages, hdecoded, hsame, hfinal⟩ :=
    App.exists_of_handle hdelivers.app
  have houtbox : next.app.outbox = device.app.outbox := by rw [hfinal]
  have hheap : next.app.heap = device.app.heap.alloc newPlace := by rw [hfinal]
  have hdecodes := Place.decodes_iff.mp hdecoded
  have hnewKey : newPlace.key = event.key :=
    (Place.key_eq_of_withoutImages hsame).trans hdecodes.key
  have hnewPlace : newPlace.withoutImages = decoded := by
    rw [hsame, Place.withoutImages, ← hdecodes.placeImages]
  refine ⟨by rw [hfinal]; exact h.signedIn, h.store.handle hdelivers.app, ?_, ?_, ?_, ?_, ?_⟩
  · intro key rating hvalue
    rw [hdelivers.rated] at hvalue
    rw [houtbox, hdelivers.record]
    exact h.rates key rating hvalue
  · intro ref href hwrites hevents
    rw [houtbox] at hwrites
    rw [hdelivers.inbox] at hevents
    rw [hdelivers.record]
    rcases hentries href with rfl | ⟨hold, hne⟩
    · -- the fresh entry: its event was the last one for its node
      rw [hheap, Heap.read_alloc_next] at hwrites hevents ⊢
      have hlast : (device.inbox.filter fun other ↦ other.key = event.key).getLast? =
          some event := by
        have hrest : rest.filter (fun other ↦ other.key = event.key) = [] :=
          List.filter_eq_nil_iff.mpr fun other hother ↦ by
            simpa using hnewKey ▸ hevents other hother
        rw [hdelivers.pending, List.filter_cons_of_pos (by simp), hrest]
        rfl
      rw [hnewKey, hnewPlace, ← h.latest _ _ hlast]
      exact hdecoded
    · rw [hheap, Heap.read_alloc_of_lt _ _ (h.store.live ref hold)] at hwrites hevents ⊢
      refine h.mirror ref hold hwrites fun other hother ↦ ?_
      rw [hdelivers.pending] at hother
      rcases List.mem_cons.mp hother with rfl | htail
      · exact Ne.symm hne
      · exact hevents other htail
  · intro key other hlast
    rw [hdelivers.record]
    refine h.latest key other ?_
    rw [hdelivers.inbox] at hlast
    rw [hdelivers.pending]
    exact getLast?_filter_of_tail hlast
  · intro write hwrite
    rw [houtbox] at hwrite
    rw [hdelivers.database]
    refine Or.inl ((h.writes write hwrite).resolve_right fun ⟨_, hempty, _⟩ ↦ ?_)
    rw [hdelivers.pending] at hempty
    cases hempty
  · intro other hother
    rw [hdelivers.inbox] at hother
    refine Or.inl ((h.events other (hdelivers.rest_subset hother)).resolve_right
      fun ⟨halone, _⟩ ↦ ?_)
    rw [hdelivers.pending, List.cons.injEq] at halone
    rw [halone.2] at hother
    cases hother

/-- Every step whose action of the user is taken when nothing is under way keeps the invariant. -/
theorem Echoing.step (h : Echoing uid device) (distanceBetween : Point → Point → ℚ)
    {action : Action} (hquiet : ActsWhenQuiet device action)
    (hmoves : Moves distanceBetween uid device next action) : Echoing uid next := by
  cases action with
  | openDetail | closeDetail => exact h.browse hquiet hmoves
  | rate =>
    obtain ⟨_, _, hrates⟩ := hmoves
    exact h.rate hquiet hrates
  | locate => exact h.locate hquiet hmoves
  | apply =>
    obtain ⟨_, _, happlies⟩ := hmoves
    exact h.apply happlies
  | deliver =>
    obtain ⟨_, _, hdelivers⟩ := hmoves
    exact h.deliver hdelivers

/-- A device whose store holds `samplePlace`, with a list page and a detail page. -/
def sampleDevice : Device where
  network :=
    { database := Network.sampleNetwork.database
      client := fun _ ↦
        { app := { sampleApp with
            listPages := Function.update (fun _ ↦ none) 0 (some ⟨false, [0]⟩)
            detailPages := Function.update (fun _ ↦ none) 1 (some ⟨0, ∅⟩)
            nextPage := 2 }
          view := Locator.loaded
          inbox := [] } }
  listed := fun _ ↦ false
  rated := fun _ ↦ none

theorem decodes_sampleDevice : ∀ ref ∈ sampleDevice.app.places,
    Place.placeFromDictionary
      (sampleDevice.network.record (sampleDevice.app.heap.read ref).key).snapshot
      (sampleDevice.app.heap.read ref).key =
        some (sampleDevice.app.heap.read ref).withoutImages := by
  decide +kernel

end Device

end BeenHere
