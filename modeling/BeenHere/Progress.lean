import BeenHere.Convergence
import BeenHere.Provenance
import BeenHere.Traps

/-!
# No client gets stuck

An observer that traps ends the app. In a network of signed-in users none does, as long as no uid is
a number and the first image name of no place leads to a directory: every copy, every write and
every event stays decodable whatever overwrites what, and so each event can be delivered in whatever
state its client is (`isSome_deliver_of_run`). Users who are not signed in are different, since the
names under which their ratings are kept are numbers.

Each write that the server applies raises one event for every client, and each event is delivered
once. So when the users stop, the network comes to rest after a bounded number of steps, and at rest
every store mirrors the database (`mirrors_at_rest`).
-/

set_option autoImplicit false
set_option relaxedAutoImplicit false

namespace BeenHere

open Firebase ObjectHeap

/-! ### Readable copies -/

/-- A uid that is not the index of an array. -/
def NotIndex (uid : String) : Prop := ∀ number, uid ≠ decimal number

theorem notIndex_of_mem {uid : String} {char : Char} (hmem : char ∈ uid.toList)
    (hchar : char.isDigit = false) : NotIndex uid := by
  rintro number rfl
  rw [decimal, show toString number = number.repr from rfl, Nat.toList_repr] at hmem
  rw [Nat.isDigit_of_mem_toDigits (by decide) le_rfl hmem] at hchar
  cases hchar

/-- A place has an image, whose first name is among those that lead to no directory, and no name in
its ratings is the index of an array. -/
def Place.Readable (files : Set String) (place : Place) : Prop :=
  (∃ name ∈ files, place.imageNames.head? = some name) ∧
    ∀ name ∈ place.ratings.keys, NotIndex name

namespace Place

variable {files : Set String}

theorem readable_withoutImages {place : Place} :
    place.withoutImages.Readable files ↔ place.Readable files :=
  Iff.rfl

/-- A call of a user who is signed in. -/
theorem Readable.perform {place : Place} (h : place.Readable files) {uid : String}
    (huid : NotIndex uid) (call : Call) :
    (Places.perform place (some uid, call)).Readable files := by
  have hnames : (Places.perform place (some uid, call)).imageNames = place.imageNames := by
    have hdetails := congrArg imageNames (Places.details_perform place (some uid, call))
    exact hdetails
  refine ⟨by rw [hnames]; exact h.1, fun name hname ↦ ?_⟩
  rcases Places.ratings_perform place (some uid) call with hsame | ⟨rating, _, hnew⟩
  · exact h.2 name (hsame ▸ hname)
  · rw [hnew, Dictionary.keys_insert, Finset.mem_insert] at hname
    rcases hname with rfl | hold
    · exact huid
    · exact h.2 name hold

/-- Written over any record, a readable place is decoded. -/
theorem Readable.decodes {place : Place} (h : place.Readable files) (record : Record)
    (key : String) :
    placeFromDictionary (record.updateChildValues (dictionaryFromPlace place)).snapshot key =
      some { place.withoutImages with key := key } := by
  have hmax : maxIndex? place.ratings.keys = none :=
    Option.eq_none_iff_forall_ne_some.mpr fun max hmax ↦
      h.2 _ (maxIndex?_eq_some_iff.mp hmax).1 max rfl
  rw [placeFromDictionary_updateChildValues, if_pos hmax]

end Place

/-! ### Clients that run -/

/-- An observer does not empty a store. -/
theorem App.places_ne_nil_of_handle {app next : App} {event : Event} (h : app.WellFormed)
    (hplaces : app.places ≠ []) (hnext : app.handle event = some next) : next.places ≠ [] := by
  obtain ⟨ref, href⟩ := List.exists_mem_of_ne_nil _ hplaces
  have hentry := (entry_eq_some_iff h).mpr ⟨href, rfl⟩
  obtain ⟨_, _, hobserved⟩ := observed_of_handle h hnext
  have hstays : ∃ other, next.entry (app.heap.read ref).key = some other := by
    by_cases hchanged : event.kind = .childChanged ∧ (app.heap.read ref).key = event.key
    · rw [hchanged.2] at hentry ⊢
      exact ⟨_, hobserved.replaced hchanged.1 (Option.isSome_of_eq_some hentry)⟩
    · exact ⟨ref, hobserved.kept _ ref hentry hchanged⟩
  obtain ⟨other, hother⟩ := hstays
  exact List.ne_nil_of_mem ((entry_eq_some_iff (h.handle hnext)).mp hother).1

theorem App.directories_visit (app : App) (place : Ref) :
    (app.visit place).2.directories = app.directories :=
  visit_rule (fun other ↦ other.directories = app.directories) rfl fun _ ↦ rfl

theorem directories_locationUpdated (distanceBetween : Point → Point → ℚ) (app : App)
    (view : Locator) (fix : Fix) :
    (locationUpdated distanceBetween app view fix).1.directories = app.directories :=
  locationUpdated_app distanceBetween (fun other ↦ other.directories = app.directories)
    (fun other hother place _ _ ↦ (App.directories_visit other place).trans hother) rfl view

/-- A signed-in user, names that lead to no directory, a store that is not empty, and events that
are decoded. -/
structure Client.Running (files : Set String) (client : Client) : Prop where
  signedIn : ∃ uid, client.app.currentUser = some uid ∧ NotIndex uid
  files : ∀ name ∈ files, client.app.directories name = false
  places : client.app.places ≠ []
  events : ∀ event ∈ client.inbox,
    (Place.placeFromDictionary event.child event.key).isSome

namespace Client

variable {files : Set String} {client changed : Client}

theorem Running.of_frame (h : client.Running files)
    (huser : changed.app.currentUser = client.app.currentUser)
    (hdirectories : changed.app.directories = client.app.directories)
    (hplaces : changed.app.places = client.app.places) (hinbox : changed.inbox = client.inbox) :
    changed.Running files :=
  ⟨huser ▸ h.signedIn, hdirectories ▸ h.files, hplaces ▸ h.places, hinbox ▸ h.events⟩

theorem Running.send (h : client.Running files) {event : Event}
    (hdecoded : (Place.placeFromDictionary event.child event.key).isSome) :
    Running files { client with inbox := client.inbox ++ [event] } :=
  ⟨h.signedIn, h.files, h.places, fun other hother ↦ by
    rcases List.mem_append.mp hother with hold | hnew
    · exact h.events other hold
    · rw [List.mem_singleton.mp hnew]
      exact hdecoded⟩

/-- Every event that the client has not taken can be delivered. Assumes: events that are decoded to
readable places. -/
theorem Running.isSome_handle (h : client.Running files) {event : Event}
    (hevent : event ∈ client.inbox)
    (hreadable : ∀ place, Place.placeFromDictionary event.child event.key = some place →
      place.Readable files) : (client.app.handle event).isSome := by
  obtain ⟨place, hplace⟩ := Option.isSome_iff_exists.mp (h.events event hevent)
  obtain ⟨uid, huser, _⟩ := h.signedIn
  obtain ⟨name, hfile, hname⟩ := (hreadable place hplace).1
  have hcomplete : Complete client.app.directories event.key event.child :=
    ⟨place, name, hplace, hname, h.files name hfile⟩
  exact App.isSome_handle_iff.mpr ⟨hcomplete.hasImage, fun _ ↦ hcomplete, fun _ ↦ h.places,
    fun _ ↦ Option.isSome_of_eq_some huser⟩

/-- What is due at a client: the deliveries of its events, and for each of its writes a number of
steps. -/
def due (weight : ℕ) (client : Client) : ℕ :=
  client.app.outbox.length * weight + client.inbox.length

theorem due_apply (weight : ℕ) {index : ℕ} (hindex : index < client.app.outbox.length) :
    due weight { client with
      app := { client.app with outbox := client.app.outbox.eraseIdx index } } + weight =
        client.due weight := by
  have hlength := List.length_eraseIdx_add_one hindex
  rw [due, due, ← hlength]
  ring

/-- An observer leaves the writes as they are. -/
theorem due_deliver (weight : ℕ) {event : Event} {app : App}
    (hhandled : client.app.handle event = some app) {index : ℕ}
    (hindex : index < client.inbox.length) :
    due weight { client with app, inbox := client.inbox.eraseIdx index } + 1 =
      client.due weight := by
  have hlength := List.length_eraseIdx_add_one hindex
  obtain ⟨_, _, _, _, _, _, _, rfl⟩ := App.exists_of_handle hhandled
  rw [due, due, ← hlength]
  rfl

end Client

namespace Network

variable {ι : Type}

/-- The invariant: every copy is readable, every client runs, and every record is decoded. -/
structure Running (files : Set String) (network : Network ι) : Prop where
  copies : Everywhere (Place.Readable files) network
  client : ∀ client, (network.client client).Running files
  records : ∀ key record, network.database key = some record →
    (Place.placeFromDictionary record.snapshot key).isSome

variable {files : Set String} {network next : Network ι}

/-- A network at the start of a run: the stores are well formed, the writes under way encode places,
every copy is readable, every client runs, and every record is decoded. -/
structure Sound (files : Set String) (network : Network ι) : Prop where
  ready : network.Ready
  readable : ∀ place, network.Copy place → place.Readable files
  client : ∀ client, (network.client client).Running files
  records : ∀ key record, network.database key = some record →
    (Place.placeFromDictionary record.snapshot key).isSome

theorem Sound.running (h : network.Sound files) : network.Running files :=
  ⟨h.ready.everywhere h.readable, h.client, h.records⟩

/-- The records and the clients after a write of a readable place. -/
theorem running_commit (hclients : ∀ client, (network.client client).Running files)
    (hrecords : ∀ key record, network.database key = some record →
      (Place.placeFromDictionary record.snapshot key).isSome) {place : Place}
    (hplace : place.Readable files) :
    (∀ client, ((network.commit place.write).client client).Running files) ∧
      ∀ key record, (network.commit place.write).database key = some record →
        (Place.placeFromDictionary record.snapshot key).isSome := by
  have hdecoded := Option.isSome_of_eq_some (hplace.decodes (network.record place.key) place.key)
  refine ⟨fun client ↦ (hclients client).send hdecoded, fun key record hrecord ↦ ?_⟩
  by_cases hkey : key = place.key
  · have hself : (network.commit place.write).database place.key =
        some ((network.record place.key).updateChildValues place.write.values) :=
      database_commit_self place.write
    rw [hkey] at hrecord ⊢
    rw [← Option.some.inj (hself.symm.trans hrecord)]
    exact hdecoded
  · rw [database_commit_of_ne hkey] at hrecord
    exact hrecords key record hrecord

variable [DecidableEq ι] (distanceBetween : Point → Point → ℚ)

omit [DecidableEq ι] in
/-- The caller of a call is the user of a client. -/
theorem exists_of_mem_calls {action : Action ι} {key : String} {caller : Option String}
    {call : Call} (h : (key, caller, call) ∈ network.calls distanceBetween action) :
    ∃ client, caller = (network.client client).app.currentUser := by
  cases action with
  | visit client place =>
    simp only [calls] at h
    split_ifs at h
    · simp only [List.mem_singleton, Prod.mk.injEq] at h
      exact ⟨client, h.2.1⟩
    · cases h
  | rate client place rating =>
    simp only [calls, List.mem_singleton, Prod.mk.injEq] at h
    exact ⟨client, h.2.1⟩
  | locate client fix =>
    simp only [calls, List.mem_map, Prod.mk.injEq] at h
    obtain ⟨_, _, _, huser, _⟩ := h
    exact ⟨client, huser.symm⟩
  | apply | deliver | observe | remove => cases h

/-- Every step keeps the invariant. -/
theorem Running.step (h : network.Running files) {action : Action ι} (hlive : network.Live action)
    (hstep : network.step distanceBetween action = some next) : next.Running files := by
  have hcopies : Everywhere (Place.Readable files) next := by
    refine h.copies.step distanceBetween (fun _ ↦ Place.readable_withoutImages) hlive
      (fun _ hplace ↦ hplace) (fun place caller call hplace hcall ↦ ?_) hstep
    obtain ⟨client, rfl⟩ := exists_of_mem_calls distanceBetween hcall
    obtain ⟨uid, huser, huid⟩ := (h.client client).signedIn
    rw [huser]
    exact hplace.perform huid call
  cases action with
  | visit client place =>
    obtain rfl := Option.some.inj hstep
    obtain ⟨huser, hplaces, _⟩ :=
      samePlaces_visit distanceBetween (network.client client).app place
    refine ⟨hcopies, forall_setClient (Client.Running files) ?_ h.client, h.records⟩
    exact (h.client client).of_frame huser (App.directories_visit _ place) hplaces rfl
  | rate client place rating =>
    obtain rfl := Option.some.inj hstep
    refine ⟨hcopies, forall_setClient (Client.Running files) ?_ h.client, h.records⟩
    exact (h.client client).of_frame rfl rfl rfl rfl
  | locate client fix =>
    obtain rfl := Option.some.inj hstep
    obtain ⟨huser, hplaces, _⟩ := samePlaces_locationUpdated distanceBetween
      (network.client client).app (network.client client).view fix
    refine ⟨hcopies, forall_setClient (Client.Running files) ?_ h.client, h.records⟩
    exact (h.client client).of_frame huser
      (directories_locationUpdated distanceBetween _ (network.client client).view fix) hplaces rfl
  | apply client index =>
    obtain ⟨write, hwrite, rfl⟩ := Option.map_eq_some_iff.mp hstep
    obtain ⟨place, hplace, rfl⟩ :=
      (h.copies.client client).outbox write (List.mem_of_getElem? hwrite)
    have hrest : ∀ other, ((network.setClient client { network.client client with
        app := { (network.client client).app with
          outbox := (network.client client).app.outbox.eraseIdx index } }).client other).Running
        files :=
      forall_setClient (Client.Running files) ((h.client client).of_frame rfl rfl rfl rfl) h.client
    obtain ⟨hclients, hrecords⟩ := running_commit hrest h.records hplace
    exact ⟨hcopies, hclients, hrecords⟩
  | deliver client index =>
    obtain ⟨event, _, hhandled⟩ := Option.bind_eq_some_iff.mp hstep
    obtain ⟨app, happ, rfl⟩ := Option.map_eq_some_iff.mp hhandled
    refine ⟨hcopies, forall_setClient (Client.Running files) ?_ h.client, h.records⟩
    have hsame : app.currentUser = (network.client client).app.currentUser ∧
        app.directories = (network.client client).app.directories := by
      obtain ⟨_, _, _, _, _, _, _, rfl⟩ := App.exists_of_handle happ
      exact ⟨rfl, rfl⟩
    exact ⟨hsame.1 ▸ (h.client client).signedIn, hsame.2 ▸ (h.client client).files,
      App.places_ne_nil_of_handle (h.copies.client client).store (h.client client).places happ,
      fun other hother ↦ (h.client client).events other (List.mem_of_mem_eraseIdx hother)⟩
  | observe client kind key =>
    obtain ⟨record, hrecord, rfl⟩ := Option.map_eq_some_iff.mp hstep
    refine ⟨hcopies, forall_setClient (Client.Running files) ?_ h.client, h.records⟩
    exact (h.client client).send (h.records key record hrecord)
  | remove key =>
    obtain rfl := Option.some.inj hstep
    refine ⟨hcopies, h.client, fun other record hrecord ↦ ?_⟩
    by_cases hother : other = key
    · rw [hother] at hrecord
      simp at hrecord
    · exact h.records other record (by simpa [hother] using hrecord)

/-- Every event that a client has not taken can be delivered. -/
theorem Running.isSome_deliver (h : network.Running files) (client : ι) {index : ℕ}
    (hindex : index < (network.client client).inbox.length) :
    (network.step distanceBetween (.deliver client index)).isSome := by
  have hget := List.getElem?_eq_getElem hindex
  have hmem := List.mem_of_getElem? hget
  obtain ⟨app, happ⟩ := Option.isSome_iff_exists.mp
    ((h.client client).isSome_handle hmem (h.copies.events client _ hmem))
  simp [Network.step, hget, happ]

/-! ### Coming to rest -/

/-- The server applies a write, or a client takes its oldest event. -/
def Action.Drains : Action ι → Prop
  | .apply _ _ => True
  | .deliver _ index => index = 0
  | _ => False

omit [DecidableEq ι] in
theorem Action.Drains.live {action : Action ι} (h : action.Drains) (network : Network ι) :
    network.Live action := by
  cases action with
  | apply | deliver => trivial
  | visit | rate | locate | observe | remove => exact h.elim

omit [DecidableEq ι] in
theorem Action.Drains.inOrder {action : Action ι} (h : action.Drains) (network : Network ι) :
    network.InOrder action := by
  cases action with
  | apply => trivial
  | deliver => exact h
  | visit | rate | locate | observe | remove => exact h.elim

section Backlog

variable [Fintype ι] {client : ι} {changed : Client}

/-- The number of applications and deliveries that are due: a write is applied once, and then
delivered to every client. -/
def backlog (network : Network ι) : ℕ :=
  ∑ client, (network.client client).due (Fintype.card ι + 1)

theorem sum_setClient (size : Client → ℕ) :
    ∑ other, size ((network.setClient client changed).client other) + size (network.client client) =
      ∑ other, size (network.client other) + size changed := by
  have hothers : ∑ other ∈ {client}ᶜ, size ((network.setClient client changed).client other) =
      ∑ other ∈ {client}ᶜ, size (network.client other) := by
    refine Finset.sum_congr rfl fun other hother ↦ ?_
    rw [client_setClient_of_ne (by simpa using hother)]
  rw [Fintype.sum_eq_add_sum_compl client, Fintype.sum_eq_add_sum_compl client, hothers,
    client_setClient_self]
  omega

/-- A changed client with less to be done. -/
theorem backlog_setClient {less : ℕ}
    (h : changed.due (Fintype.card ι + 1) + less =
      (network.client client).due (Fintype.card ι + 1)) :
    (network.setClient client changed).backlog + less = network.backlog := by
  have hsum : (network.setClient client changed).backlog +
      (network.client client).due (Fintype.card ι + 1) =
        network.backlog + changed.due (Fintype.card ι + 1) :=
    sum_setClient (Client.due (Fintype.card ι + 1))
  omega

omit [DecidableEq ι] in
/-- A write raises one event for every client. -/
theorem backlog_commit (write : Write) :
    (network.commit write).backlog = network.backlog + Fintype.card ι := by
  have hclient (client : ι) : ((network.commit write).client client).due (Fintype.card ι + 1) =
      (network.client client).due (Fintype.card ι + 1) + 1 := by
    simp only [commit, Client.due, List.length_append, List.length_singleton]
    omega
  rw [backlog, Finset.sum_congr rfl fun client _ ↦ hclient client, Finset.sum_add_distrib,
    Finset.sum_const, Finset.card_univ, smul_eq_mul, mul_one]
  rfl

/-- Every application and every delivery reduces the backlog. -/
theorem backlog_lt_of_step {action : Action ι} (hdrains : action.Drains)
    (hstep : network.step distanceBetween action = some next) : next.backlog < network.backlog := by
  cases action with
  | apply client index =>
    obtain ⟨write, hwrite, rfl⟩ := Option.map_eq_some_iff.mp hstep
    obtain ⟨hindex, _⟩ := List.getElem?_eq_some_iff.mp hwrite
    rw [backlog_commit, ← backlog_setClient (Client.due_apply _ hindex)]
    omega
  | deliver client index =>
    obtain ⟨event, hevent, hhandled⟩ := Option.bind_eq_some_iff.mp hstep
    obtain ⟨app, happ, rfl⟩ := Option.map_eq_some_iff.mp hhandled
    obtain ⟨hindex, _⟩ := List.getElem?_eq_some_iff.mp hevent
    rw [← backlog_setClient (Client.due_deliver _ happ hindex)]
    exact Nat.lt_succ_self _
  | visit | rate | locate | observe | remove => exact hdrains.elim

omit [Fintype ι] in
/-- At rest, where the server can apply nothing and no client can take an event, nothing is under
way. -/
theorem Running.settled (h : network.Running files)
    (hrest : ∀ action : Action ι, action.Drains → network.step distanceBetween action = none)
    (client : ι) (key : String) : network.Settled client key := by
  have houtbox : (network.client client).app.outbox = [] := by
    by_contra hne
    have happly : network.step distanceBetween (.apply client 0) = none := hrest _ trivial
    have hget := List.getElem?_eq_getElem (List.length_pos_iff.mpr hne)
    simp [Network.step, hget] at happly
  have hinbox : (network.client client).inbox = [] := by
    by_contra hne
    have hdeliver := h.isSome_deliver distanceBetween client (List.length_pos_iff.mpr hne)
    rw [hrest (.deliver client 0) rfl] at hdeliver
    cases hdeliver
  exact ⟨by rw [App.pending, houtbox]; rfl, by rw [hinbox]; rfl⟩

end Backlog

/-! ### Runs -/

section Runs

variable {start final : Network ι} {actions : List (Action ι)}

/-- Assumes: a network as in `Sound`, and a run whose calls are made on objects that have been
allocated. After the run, in which writes are applied and events delivered in any order and nodes
may be removed, no observer traps: every event that a client has not taken can be delivered. -/
theorem isSome_deliver_of_run (hstart : start.Sound files)
    (hlive : PartialRun.Guarded (Network.step distanceBetween) Live start actions)
    (hrun : PartialRun.run (Network.step distanceBetween) start actions = some final)
    (client : ι) {index : ℕ} (hindex : index < (final.client client).inbox.length) :
    (final.step distanceBetween (.deliver client index)).isSome := by
  have hfinal : final.Running files := PartialRun.run_invariant
    (fun _ _ _ hstate hguard hstep ↦ hstate.step distanceBetween hguard hstep)
    hstart.running hlive hrun
  exact hfinal.isSome_deliver distanceBetween client hindex

omit [DecidableEq ι] in
theorem running_sampleNetwork (client : Bool) :
    (sampleNetwork.client client).Running {"boyana.jpg"} where
  signedIn := by
    cases client
    · exact ⟨"boris", rfl, notIndex_of_mem List.mem_cons_self rfl⟩
    · exact ⟨"ana", rfl, notIndex_of_mem List.mem_cons_self rfl⟩
  files name hname := by
    obtain rfl := Set.mem_singleton_iff.mp hname
    cases client <;> decide
  places := by cases client <;> exact List.cons_ne_nil _ _
  events _ hevent := (List.not_mem_nil hevent).elim

omit [DecidableEq ι] in
theorem sound_sampleNetwork : sampleNetwork.Sound {"boyana.jpg"} where
  ready := ready_sampleNetwork
  readable place hcopy := by
    rw [eq_samplePlace_of_copy hcopy]
    exact ⟨⟨_, Set.mem_singleton _, rfl⟩, fun _ hname ↦ (Finset.notMem_empty _ hname).elim⟩
  client := running_sampleNetwork
  records key record hrecord := by
    by_cases hkey : key = "boyana"
    · simp only [sampleNetwork, hkey, Function.update_self, Option.some.injEq] at hrecord
      rw [← hrecord, hkey, Place.placeFromDictionary_sampleRecord]
      rfl
    · simp [sampleNetwork, hkey] at hrecord

/-- Both users visit, and the writes are applied: the second event is delivered before the first. -/
theorem isSome_deliver_of_run_sample :
    ∃ final, PartialRun.run (Network.step sampleDistance) sampleNetwork
        [.visit true 0, .visit false 0, .apply true 0, .apply false 0] = some final ∧
      (final.step sampleDistance (.deliver true 1)).isSome := by
  have hruns : (PartialRun.run (Network.step sampleDistance) sampleNetwork
      [.visit true 0, .visit false 0, .apply true 0, .apply false 0]).map
        (fun final ↦ decide (1 < (final.client true).inbox.length)) = some true := by
    decide +kernel
  obtain ⟨final, hrun, hinbox⟩ := Option.map_eq_some_iff.mp hruns
  exact ⟨final, hrun, isSome_deliver_of_run sampleDistance sound_sampleNetwork (by decide +kernel)
    hrun true (of_decide_eq_true hinbox)⟩

/-- Assumes: finitely many clients, a network as in `Sound`, events under way at the start that
bring every entry to what the record of its node decodes to, and a run in which calls are made on
objects that have been allocated, no node is removed and every client takes its events in order.
When the users stop after the run, the network comes to rest within as many steps as its backlog
counts, in whatever order the writes are applied and the clients take their oldest events. At rest
every store has an entry exactly for the nodes that exist, and the entry is what the record of its
node decodes to, image data aside. -/
theorem mirrors_at_rest [Fintype ι] (hstart : start.Sound files)
    (hforecast : ∀ key client, ((start.client client).replica key).forecast = start.decoded key)
    (hlive : PartialRun.Guarded (Network.step distanceBetween) Live start actions)
    (horder : PartialRun.Guarded (Network.step distanceBetween) InOrder start actions)
    (hrun : PartialRun.run (Network.step distanceBetween) start actions = some final)
    {drain : List (Action ι)} {rest : Network ι} (hdrain : ∀ action ∈ drain, action.Drains)
    (hrest : PartialRun.run (Network.step distanceBetween) final drain = some rest) :
    drain.length ≤ final.backlog ∧
      ((∀ action : Action ι, action.Drains → rest.step distanceBetween action = none) →
        ∀ client key, (rest.client client).app.copy key = rest.decoded key) := by
  have hkeep (network : Network ι) (action : Action ι) (next : Network ι)
      (h : network.Running files) (hguard : network.Live action)
      (hstep : network.step distanceBetween action = some next) : next.Running files :=
    h.step distanceBetween hguard hstep
  have hfinal : final.Running files :=
    PartialRun.run_invariant hkeep hstart.running hlive hrun
  refine ⟨?_, fun hatRest client key ↦ ?_⟩
  · exact PartialRun.length_le_of_decreasing
      (fun action haction _ _ hstep ↦ backlog_lt_of_step distanceBetween (hdrain action haction)
        hstep) hrest
  · have hrunning : rest.Running files := PartialRun.run_invariant hkeep hfinal
      (PartialRun.guarded_of_forall_mem (fun action haction ↦ (hdrain action haction).live) final)
      hrest
    obtain ⟨hstores, hconverging⟩ := converging_of_run distanceBetween hstart.ready.store
      (converging_of_forecast (hforecast key)) horder hrun
    obtain ⟨_, hdrained⟩ := converging_of_run distanceBetween hstores hconverging
      (PartialRun.guarded_of_forall_mem
        (fun action haction ↦ (hdrain action haction).inOrder) final) hrest
    exact hdrained.copy_eq (hrunning.settled distanceBetween hatRest client key).idle

/-- Both users visit and stop, the writes are applied and the events delivered. -/
theorem mirrors_at_rest_sample :
    ∃ rest : Network Bool, rest.database "boyana" ≠ none ∧
      ∀ client key, (rest.client client).app.copy key = rest.decoded key := by
  have hruns : ((PartialRun.run (Network.step sampleDistance) sampleNetwork
      [.visit true 0, .visit false 0]).bind fun final ↦
        (PartialRun.run (Network.step sampleDistance) final
          [.apply true 0, .apply false 0, .deliver true 0, .deliver false 0, .deliver true 0,
            .deliver false 0]).map fun rest ↦
          decide ((rest.database "boyana").isSome ∧ ∀ client,
            (rest.client client).app.outbox.length = 0 ∧ (rest.client client).inbox.length = 0)) =
      some true := by
    decide +kernel
  obtain ⟨final, hrun, hdrained⟩ := Option.bind_eq_some_iff.mp hruns
  obtain ⟨rest, hrest, hempty⟩ := Option.map_eq_some_iff.mp hdrained
  obtain ⟨hdatabase, hempty⟩ := of_decide_eq_true hempty
  have hdrains : ∀ action ∈ ([.apply true 0, .apply false 0, .deliver true 0, .deliver false 0,
      .deliver true 0, .deliver false 0] : List (Action Bool)), action.Drains := by
    simp [Action.Drains]
  have hatRest (action : Action Bool) (haction : action.Drains) :
      rest.step sampleDistance action = none := by
    cases action with
    | apply client index =>
      simp [Network.step, List.length_eq_zero_iff.mp (hempty client).1]
    | deliver client index =>
      simp [Network.step, List.length_eq_zero_iff.mp (hempty client).2]
    | visit | rate | locate | observe | remove => exact haction.elim
  exact ⟨rest, Option.isSome_iff_ne_none.mp hdatabase, (mirrors_at_rest sampleDistance
    sound_sampleNetwork forecast_sampleNetwork (by decide +kernel) (by decide +kernel) hrun hdrains
    hrest).2 hatRest⟩

end Runs

end Network

end BeenHere
