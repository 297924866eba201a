import BeenHere.Clients
import BeenHere.Copies
import BeenHere.Library.Replication
import BeenHere.Observers
import BeenHere.Runtime

/-!
# Convergence

Users who act at the same time overwrite each other, and a store shows its own changes before the
server has applied them. The stores do not stay apart, though. For one node a network is a register
with optimistic replicas (`Network.register`): the record is the register, the entry of each store a
copy, and the writes and the events for the node are what is under way. Every step of a network in
which no node is removed and every client takes its events in order is a sequence of steps of that
system, for every node (`reaches_of_step`), whatever the order in which the server applies the
writes.

So whatever the users have done, a store mirrors the database for every node for which its client
has no write and no event under way, and two such stores hold the same (`mirrors_of_runs`). A place
that one user removed from the server is different: see `absent_iff_leaves`.
-/

set_option autoImplicit false
set_option relaxedAutoImplicit false

namespace BeenHere

open Firebase ObjectHeap Replication

/-- What the observer of an event does to the entry of its node. -/
def Event.signal (event : Event) : Signal (Option Place) :=
  match event.kind with
  | .childAdded => .added (Place.placeFromDictionary event.child event.key)
  | .childChanged => .changed (Place.placeFromDictionary event.child event.key)

/-- The entry of the store for a node, image data aside. -/
def App.copy (app : App) (key : String) : Option (Option Place) :=
  (app.entry key).map fun ref ↦ some (app.heap.read ref).withoutImages

/-- A client as a replica of a node. -/
def Client.replica (client : Client) (key : String) : Replica (Option Place) where
  copy := client.app.copy key
  pending := (client.app.pending key).length
  queue := (Feed.about key client.inbox).map Event.signal

namespace Network

variable {ι : Type}

/-- What the record of a node is decoded to. -/
def decoded (network : Network ι) (key : String) : Option (Option Place) :=
  (network.database key).map fun record ↦ Place.placeFromDictionary record.snapshot key

/-- A network as a register with replicas, for one node. -/
def register (network : Network ι) (key : String) : System ι (Option Place) where
  register := network.decoded key
  replica := fun client ↦ (network.client client).replica key

end Network

/-! ### One client -/

namespace App

variable {app : App} {key : String}

/-- An entry is found by the keys of the objects alone. -/
theorem entry_writeBack {ref : Ref} {changed : Place}
    (hkey : changed.key = (app.heap.read ref).key) :
    (app.writeBack ref changed).entry key = app.entry key := by
  have hkeys (other : Ref) : ((app.writeBack ref changed).heap.read other).key =
      (app.heap.read other).key := app.heap.view_read_write _ Place.key hkey other
  simp only [entry, hkeys]
  rfl

/-- Writing an object of another place leaves the copy as it is. -/
theorem copy_writeBack_of_ne {ref : Ref} {changed : Place}
    (hkey : changed.key = (app.heap.read ref).key) (hne : changed.key ≠ key) :
    (app.writeBack ref changed).copy key = app.copy key := by
  rw [copy, copy, entry_writeBack hkey]
  refine Option.map_congr fun other hother ↦ ?_
  have hdifferent : other ≠ ref := by
    rintro rfl
    exact hne (hkey.trans (key_of_entry hother))
  rw [writeBack, Heap.read_write_of_ne _ _ hdifferent]

theorem pending_writeBack_of_ne {ref : Ref} {changed : Place} (hne : changed.key ≠ key) :
    (app.writeBack ref changed).pending key = app.pending key := by
  simp [pending, writeBack, hne]

section Handle

variable {next : App} {event : Event}

/-- Entries that an event keeps are the same copies. -/
theorem copy_of_kept (h : app.WellFormed) {newPlace : Place}
    (hheap : next.heap = app.heap.alloc newPlace) (hentry : next.entry key = app.entry key) :
    next.copy key = app.copy key := by
  rw [copy, copy, hentry]
  refine Option.map_congr fun ref href ↦ ?_
  rw [hheap, Heap.read_alloc_of_lt _ _ (h.live ref ((entry_eq_some_iff h).mp href).1)]

theorem copy_handle_of_ne (h : app.WellFormed) (hnext : app.handle event = some next)
    (hne : event.key ≠ key) : next.copy key = app.copy key := by
  obtain ⟨decoded, newPlace, hobserved⟩ := observed_of_handle h hnext
  refine copy_of_kept h hobserved.heap (Option.ext fun ref ↦ ⟨fun hentry ↦ ?_, fun hentry ↦ ?_⟩)
  · exact (hobserved.origin key ref hentry).resolve_right fun hnew ↦ hne hnew.2.symm
  · exact hobserved.kept key ref hentry fun hchanged ↦ hne hchanged.2.symm

/-- The new place is the entry of its node. -/
theorem copy_of_fresh {decoded newPlace : Place}
    (hdecoded : Place.placeFromDictionary event.child event.key = some decoded)
    (hsame : newPlace.withoutImages = decoded.withoutImages)
    (hheap : next.heap = app.heap.alloc newPlace)
    (hentry : next.entry event.key = some app.heap.next) :
    next.copy event.key = some (Place.placeFromDictionary event.child event.key) := by
  rw [copy, hentry, Option.map_some, hheap, Heap.read_alloc_next, hsame, hdecoded,
    Place.withoutImages, ← (Place.decodes_iff.mp hdecoded).placeImages]

/-- An addition creates the entry of its node unless the store has one. -/
theorem copy_childAdded (h : app.WellFormed) (hkind : event.kind = .childAdded)
    (hnext : app.handle event = some next) :
    next.copy event.key = event.signal.receive (app.copy event.key) := by
  obtain ⟨_, _, hobserved⟩ := observed_of_handle h hnext
  rw [Event.signal, hkind]
  cases hentry : app.entry event.key with
  | some ref =>
    have hkept := hobserved.kept _ ref hentry fun hchanged ↦ by
      rw [hkind] at hchanged
      cases hchanged.1
    rw [copy_of_kept h hobserved.heap (hkept.trans hentry.symm), copy, hentry]
    rfl
  | none =>
    rw [copy_of_fresh hobserved.decodes hobserved.fresh hobserved.heap
      (hobserved.added hkind hentry), copy, hentry]
    rfl

/-- A change replaces the entry of its node, if the store has one. -/
theorem copy_childChanged (h : app.WellFormed) (hkind : event.kind = .childChanged)
    (hnext : app.handle event = some next) :
    next.copy event.key = event.signal.receive (app.copy event.key) := by
  obtain ⟨decoded, newPlace, hobserved⟩ := observed_of_handle h hnext
  rw [Event.signal, hkind]
  cases hentry : app.entry event.key with
  | some ref =>
    rw [copy_of_fresh hobserved.decodes hobserved.fresh hobserved.heap
      (hobserved.replaced hkind (Option.isSome_of_eq_some hentry)), copy, hentry]
    rfl
  | none =>
    simp only [handle, observe, hkind] at hnext
    obtain ⟨place, requests, hdecoded, _, rfl⟩ := exists_of_childChanged hnext
    have hkey := (Place.decodes_iff.mp hdecoded).key
    have hread {ref : Ref} (href : ref ∈ app.places) :
        ((app.heap.alloc place).read ref).key ≠ event.key := by
      rw [Heap.read_alloc_of_lt _ _ (h.live ref href)]
      exact entry_eq_none_iff.mp hentry ref href
    have hplaces : replaceEntry (app.heap.alloc place) app.heap.next app.places = app.places := by
      rcases replaceEntry_eq (app.heap.alloc place) app.heap.next app.places with
        ⟨_, hsame⟩ | ⟨before, ref, after, hsplit, hsame, _⟩
      · exact hsame
      · rw [Heap.read_alloc_next, hkey] at hsame
        exact absurd hsame (hread (hsplit ▸ List.mem_append_right _ List.mem_cons_self))
    have hnone : (refresh { app with
        heap := app.heap.alloc place
        places := replaceEntry (app.heap.alloc place) app.heap.next app.places
        requests := requests }).entry event.key = none := by
      refine entry_eq_none_iff.mpr fun ref href ↦ ?_
      rw [places_refresh, hplaces] at href
      exact hread href
    rw [copy, hnone, copy, hentry]
    rfl

/-- The entry of a node after an event for the node. -/
theorem copy_handle_self (h : app.WellFormed) (hnext : app.handle event = some next) :
    next.copy event.key = event.signal.receive (app.copy event.key) := by
  cases hkind : event.kind with
  | childAdded => exact copy_childAdded h hkind hnext
  | childChanged => exact copy_childChanged h hkind hnext

end Handle

/-- The outbox stays as it is. -/
theorem pending_handle {next : App} {event : Event} (hnext : app.handle event = some next)
    (key : String) : next.pending key = app.pending key := by
  obtain ⟨_, _, _, _, _, _, _, rfl⟩ := exists_of_handle hnext
  rfl

theorem WellFormed.visit (h : app.WellFormed) (ref : Ref) : (app.visit ref).2.WellFormed :=
  visit_rule WellFormed h fun _ ↦ h.writeBack (Places.key_visit ..)

end App

/-- The client gets to another state of its app by edits of its copy. -/
def Client.Edits (key : String) (client : Client) (app : App) : Prop :=
  Relation.ReflTransGen Replica.Edit (client.replica key)
    ({ client with app }.replica key)

namespace Client

variable {client : Client} {app : App} {key : String}

/-- A call that writes a place is an edit of the copy of its node. -/
theorem Edits.writeBack (h : client.Edits key app) {ref : Ref} {changed : Place}
    (hkey : changed.key = (app.heap.read ref).key) :
    client.Edits key (app.writeBack ref changed) := by
  by_cases hsame : changed.key = key
  · have hpending : (app.writeBack ref changed).pending key = app.pending key ++ [changed.write] :=
      app.pending_append _ hsame
    have hedit : Replica.Edit ({ client with app }.replica key)
        ({ client with app := app.writeBack ref changed }.replica key) := by
      have hcopy : ((app.writeBack ref changed).copy key).isSome = (app.copy key).isSome := by
        rw [App.copy, App.copy, Option.isSome_map, Option.isSome_map, App.entry_writeBack hkey]
      have hlength : ((app.writeBack ref changed).pending key).length =
          (app.pending key).length + 1 := by
        rw [hpending, List.length_append, List.length_singleton]
      have hreplica : { client with app := app.writeBack ref changed }.replica key =
          { { client with app }.replica key with
            copy := (app.writeBack ref changed).copy key
            pending := (app.pending key).length + 1 } := by
        simp only [replica, hlength]
      rw [hreplica]
      exact Replica.Edit.edit _ hcopy
    exact h.tail hedit
  · have hreplica : { client with app := app.writeBack ref changed }.replica key =
        { client with app }.replica key := by
      simp only [replica, App.copy_writeBack_of_ne hkey hsame,
        App.pending_writeBack_of_ne hsame]
    rw [Edits, hreplica]
    exact h

theorem Edits.visit (h : client.Edits key app) (ref : Ref) :
    client.Edits key (app.visit ref).2 :=
  App.visit_rule (client.Edits key) h fun _ ↦ h.writeBack (Places.key_visit ..)

end Client

/-! ### The network -/

namespace Network

variable {ι : Type} [DecidableEq ι] {network next : Network ι} {client : ι} {changed : Client}
  {key : String}

/-- The steps of a network in which no node is removed and every client takes its oldest event. -/
def InOrder (_ : Network ι) : Action ι → Prop
  | .deliver _ index => index = 0
  | .remove _ => False
  | _ => True

instance (network : Network ι) : DecidablePred network.InOrder
  | .deliver _ _ => inferInstanceAs (Decidable (_ = _))
  | .remove _ => inferInstanceAs (Decidable False)
  | .visit _ _ | .rate _ _ _ | .locate _ _ | .apply _ _ | .observe _ _ _ =>
    inferInstanceAs (Decidable True)

/-- For one node, the network gets from one state to another by steps of the register with
replicas. -/
def Reaches (key : String) (network next : Network ι) : Prop :=
  Relation.ReflTransGen System.Step (network.register key) (next.register key)

theorem register_setClient : (network.setClient client changed).register key =
    (network.register key).setReplica client (changed.replica key) := by
  refine congrArg (System.mk _) (funext fun other ↦ ?_)
  by_cases hother : other = client
  · rw [hother, client_setClient_self, Function.update_self]
  · rw [client_setClient_of_ne hother, Function.update_of_ne hother]
    rfl

/-- A client that is the same replica of a node. -/
theorem register_setClient_of_replica
    (hsame : changed.replica key = (network.client client).replica key) :
    (network.setClient client changed).register key = network.register key := by
  rw [register_setClient, hsame]
  exact System.setReplica_self

/-- The calls of a client are edits of its copies. -/
theorem reaches_of_edits (h : (network.client client).Edits key changed.app)
    (hinbox : changed.inbox = (network.client client).inbox) :
    Reaches key network (network.setClient client changed) := by
  have hreplica : changed.replica key =
      { network.client client with app := changed.app }.replica key := by
    simp only [Client.replica, hinbox]
  rw [Reaches, register_setClient, hreplica]
  exact System.reaches_of_edits h

/-! ### Writes -/

/-- An event that is sent to a client is a signal to the replica of its node. -/
theorem replica_send (client : Client) (event : Event) :
    { client with inbox := client.inbox ++ [event] }.replica event.key =
      (client.replica event.key).send event.signal := by
  have hself : Feed.about event.key [event] = [event] := Feed.about_cons_self event []
  simp only [Client.replica, Replica.send, Feed.about_append, hself, List.map_append, List.map_cons,
    List.map_nil]

theorem replica_send_of_ne (client : Client) {event : Event} (hne : event.key ≠ key) :
    { client with inbox := client.inbox ++ [event] }.replica key = client.replica key := by
  have hother : Feed.about key [event] = [] := Feed.about_cons_of_ne hne []
  simp only [Client.replica, Feed.about_append, hother, List.append_nil]

omit [DecidableEq ι] in
/-- A write that the server applies sets the register of its node. -/
theorem register_commit_self (write : Write) :
    (network.commit write).register write.key =
      (network.register write.key).commit (Place.placeFromDictionary
        ((network.record write.key).updateChildValues write.values).snapshot write.key) := by
  have hdecoded : (network.commit write).decoded write.key = some (Place.placeFromDictionary
      ((network.record write.key).updateChildValues write.values).snapshot write.key) := by
    rw [decoded, database_commit_self, Option.map_some]
  rw [register, hdecoded, System.commit]
  refine congrArg (System.mk _) (funext fun other ↦ ?_)
  refine (replica_send _ _).trans (congrArg (fun signal ↦ Replica.send signal _) ?_)
  rw [System.signal, register, decoded, Option.isSome_map]
  cases (network.database write.key).isSome <;> rfl

omit [DecidableEq ι] in
theorem register_commit_of_ne {write : Write} (hne : write.key ≠ key) :
    (network.commit write).register key = network.register key := by
  have hdecoded : (network.commit write).decoded key = network.decoded key := by
    rw [decoded, database_commit_of_ne (Ne.symm hne), decoded]
  rw [register, hdecoded, register]
  exact congrArg (System.mk _) (funext fun other ↦ replica_send_of_ne _ hne)

/-- The server applies a write of a client. -/
theorem reaches_apply {index : ℕ} {write : Write}
    (hwrite : (network.client client).app.outbox[index]? = some write) :
    Reaches key network ((network.setClient client
      { network.client client with
        app := { (network.client client).app with
          outbox := (network.client client).app.outbox.eraseIdx index } }).commit write) := by
  set app := (network.client client).app with happ
  set rest : App := { app with outbox := app.outbox.eraseIdx index }
  have hperm : (write :: rest.outbox).Perm app.outbox := by
    obtain ⟨hindex, hget⟩ := List.getElem?_eq_some_iff.mp hwrite
    rw [← hget]
    exact List.getElem_cons_eraseIdx_perm hindex
  have hlength := (hperm.filter fun write ↦ write.key = key).length_eq
  by_cases hkey : write.key = key
  · subst hkey
    rw [List.filter_cons_of_pos (by simp), List.length_cons] at hlength
    have hreplica : Client.replica { network.client client with app := rest } write.key =
        { (network.client client).replica write.key with
          pending := (rest.pending write.key).length } := rfl
    rw [Reaches, register_commit_self, register_setClient, hreplica]
    exact Relation.ReflTransGen.single (System.Step.apply client _ _ hlength.symm)
  · rw [List.filter_cons_of_neg (by simpa using hkey)] at hlength
    have hreplica : Client.replica { network.client client with app := rest } key =
        (network.client client).replica key := by
      simp only [Client.replica, App.pending, ← happ, ← hlength]
      rfl
    rw [Reaches, register_commit_of_ne hkey, register_setClient_of_replica hreplica]

/-- A client takes its oldest event. -/
theorem reaches_deliver (hstore : (network.client client).app.WellFormed) {event : Event}
    {rest : List Event} (hinbox : (network.client client).inbox = event :: rest) {app : App}
    (hhandled : (network.client client).app.handle event = some app) :
    Reaches key network (network.setClient client
      { network.client client with app := app, inbox := rest }) := by
  have hpending := App.pending_handle hhandled key
  by_cases hkey : event.key = key
  · subst hkey
    have hqueue : ((network.client client).replica event.key).queue =
        event.signal :: (Feed.about event.key rest).map Event.signal := by
      simp only [Client.replica, hinbox, Feed.about_cons_self, List.map_cons]
    have hreplica : Client.replica
        { network.client client with app := app, inbox := rest } event.key =
          { (network.client client).replica event.key with
            copy := event.signal.receive ((network.client client).replica event.key).copy
            queue := (Feed.about event.key rest).map Event.signal } := by
      simp only [Client.replica, App.copy_handle_self hstore hhandled, hpending]
    rw [Reaches, register_setClient, hreplica]
    exact Relation.ReflTransGen.single (System.Step.receive client _ _ hqueue)
  · have hreplica : Client.replica
        { network.client client with app := app, inbox := rest } key =
          (network.client client).replica key := by
      simp only [Client.replica, App.copy_handle_of_ne hstore hhandled hkey, hpending, hinbox,
        Feed.about_cons_of_ne hkey]
    rw [Reaches, register_setClient_of_replica hreplica]

/-- A client is sent the snapshot of a node once more. -/
theorem reaches_observe {other : String} {record : Record}
    (hrecord : network.database other = some record) (kind : EventKind) :
    Reaches key network (network.setClient client
      { network.client client with
        inbox := (network.client client).inbox ++ [⟨kind, other, record.snapshot⟩] }) := by
  set event : Event := ⟨kind, other, record.snapshot⟩
  by_cases hkey : event.key = key
  · subst hkey
    have hcurrent : (network.register event.key).register = some event.signal.value := by
      have hdecoded : network.decoded event.key =
          some (Place.placeFromDictionary record.snapshot other) := by
        rw [decoded, hrecord, Option.map_some]
      rw [register, hdecoded]
      cases kind <;> rfl
    rw [Reaches, register_setClient, replica_send]
    exact Relation.ReflTransGen.single (System.Step.replay client _ hcurrent)
  · rw [Reaches, register_setClient_of_replica (replica_send_of_ne _ hkey)]

/-! ### Runs -/

section Runs

variable (distanceBetween : Point → Point → ℚ)

/-- Every step that keeps the order of the events and removes no node. Assumes: well formed
stores. -/
theorem reaches_of_step (hstores : ∀ client, (network.client client).app.WellFormed)
    {action : Action ι} (horder : network.InOrder action)
    (hstep : network.step distanceBetween action = some next) : Reaches key network next := by
  have hself (client : ι) :
      (network.client client).Edits key (network.client client).app := Relation.ReflTransGen.refl
  cases action with
  | visit client place =>
    obtain rfl := Option.some.inj hstep
    exact reaches_of_edits ((hself client).visit place) rfl
  | rate client place rating =>
    obtain rfl := Option.some.inj hstep
    exact reaches_of_edits ((hself client).writeBack rfl) rfl
  | locate client fix =>
    obtain rfl := Option.some.inj hstep
    refine reaches_of_edits ?_ rfl
    exact locationUpdated_app distanceBetween ((network.client client).Edits key)
      (fun _ hother place _ _ ↦ hother.visit place) (hself client) _
  | apply client index =>
    obtain ⟨write, hwrite, rfl⟩ := Option.map_eq_some_iff.mp hstep
    exact reaches_apply hwrite
  | deliver client index =>
    obtain rfl : index = 0 := horder
    obtain ⟨event, hevent, hhandled⟩ := Option.bind_eq_some_iff.mp hstep
    obtain ⟨app, happ, rfl⟩ := Option.map_eq_some_iff.mp hhandled
    cases hinbox : (network.client client).inbox with
    | nil =>
      rw [hinbox] at hevent
      cases hevent
    | cons first rest =>
      rw [hinbox] at hevent
      obtain rfl := Option.some.inj hevent
      exact reaches_deliver (hstores client) hinbox happ
  | observe client kind other =>
    obtain ⟨record, hrecord, rfl⟩ := Option.map_eq_some_iff.mp hstep
    exact reaches_observe hrecord kind
  | remove other => exact horder.elim

/-- Every step keeps the stores well formed. -/
theorem wellFormed_of_step (hstores : ∀ client, (network.client client).app.WellFormed)
    {action : Action ι} (hstep : network.step distanceBetween action = some next) (other : ι) :
    (next.client other).app.WellFormed := by
  cases action with
  | visit client place =>
    obtain rfl := Option.some.inj hstep
    refine forall_setClient (fun client ↦ client.app.WellFormed) ?_ hstores other
    exact (hstores client).visit place
  | rate client place rating =>
    obtain rfl := Option.some.inj hstep
    refine forall_setClient (fun client ↦ client.app.WellFormed) ?_ hstores other
    exact (hstores client).writeBack rfl
  | locate client fix =>
    obtain rfl := Option.some.inj hstep
    refine forall_setClient (fun client ↦ client.app.WellFormed) ?_ hstores other
    exact locationUpdated_app distanceBetween App.WellFormed
      (fun _ happ place _ _ ↦ happ.visit place) (hstores client) _
  | apply client index =>
    obtain ⟨write, _, rfl⟩ := Option.map_eq_some_iff.mp hstep
    rw [app_commit]
    refine forall_setClient (fun client ↦ client.app.WellFormed) ?_ hstores other
    exact ⟨(hstores client).live, (hstores client).keys⟩
  | deliver client index =>
    obtain ⟨event, _, hhandled⟩ := Option.bind_eq_some_iff.mp hstep
    obtain ⟨app, happ, rfl⟩ := Option.map_eq_some_iff.mp hhandled
    refine forall_setClient (fun client ↦ client.app.WellFormed) ?_ hstores other
    exact (hstores client).handle happ
  | observe client kind key =>
    obtain ⟨record, _, rfl⟩ := Option.map_eq_some_iff.mp hstep
    refine forall_setClient (fun client ↦ client.app.WellFormed) ?_ hstores other
    exact hstores client
  | remove key =>
    obtain rfl := Option.some.inj hstep
    exact hstores other

/-- Nothing is under way for a node at a client: no write of the client, and no event. -/
def Settled (network : Network ι) (client : ι) (key : String) : Prop :=
  (network.client client).app.pending key = [] ∧
    Feed.about key (network.client client).inbox = []

/-- Assumes: well formed stores, a converging register for the node, and a run in which no node is
removed and every client takes its events in order. -/
theorem converging_of_run {start final : Network ι}
    (hstores : ∀ client, (start.client client).app.WellFormed)
    (hstart : (start.register key).Converging) {actions : List (Action ι)}
    (horder : PartialRun.Guarded (step distanceBetween) InOrder start actions)
    (hrun : PartialRun.run (step distanceBetween) start actions = some final) :
    (∀ client, (final.client client).app.WellFormed) ∧ (final.register key).Converging := by
  have hkeep (network : Network ι) (action : Action ι) (next : Network ι)
      (h : (∀ client, (network.client client).app.WellFormed) ∧
        (network.register key).Converging) (hguard : network.InOrder action)
      (hstep : network.step distanceBetween action = some next) :
      (∀ client, (next.client client).app.WellFormed) ∧ (next.register key).Converging :=
    ⟨wellFormed_of_step distanceBetween h.1 hstep,
      h.2.reachable (reaches_of_step distanceBetween h.1 hguard hstep)⟩
  exact PartialRun.run_invariant hkeep ⟨hstores, hstart⟩ horder hrun

omit [DecidableEq ι] in
theorem converging_of_forecast
    (h : ∀ client, ((network.client client).replica key).forecast = network.decoded key) :
    (network.register key).Converging :=
  ⟨fun client ↦ congrArg Option.isSome (h client), fun client _ ↦ h client⟩

omit [DecidableEq ι] in
theorem Settled.idle (h : network.Settled client key) : (network.register key).Idle client :=
  ⟨List.length_eq_zero_iff.mpr h.1, List.map_eq_nil_iff.mpr h.2⟩

/-- Assumes: well formed stores, events under way at the start that bring every entry to what the
record of its node decodes to, and a run in which no node is removed and every client takes its
events in order. After the run, whatever the users have done and in whatever order the server has
applied their writes, a client with nothing under way for a node has an entry for it exactly if the
node exists, and the entry is what the record decodes to, image data aside; and so two such clients
hold the same. -/
theorem mirrors_of_runs {start final : Network ι}
    (hstores : ∀ client, (start.client client).app.WellFormed)
    (hstart : ∀ key client,
      ((start.client client).replica key).forecast = start.decoded key)
    {actions : List (Action ι)}
    (horder : PartialRun.Guarded (step distanceBetween) InOrder start actions)
    (hrun : PartialRun.run (step distanceBetween) start actions = some final) (key : String) :
    (∀ client, final.Settled client key →
      (final.client client).app.copy key = final.decoded key) ∧
    ∀ first second, final.Settled first key → final.Settled second key →
      (final.client first).app.copy key = (final.client second).app.copy key := by
  obtain ⟨_, hfinal⟩ :=
    converging_of_run distanceBetween hstores (converging_of_forecast (hstart key)) horder hrun
  exact ⟨fun client hsettled ↦ hfinal.copy_eq hsettled.idle,
    fun first second hfirst hsecond ↦ hfinal.copy_eq_copy hfirst.idle hsecond.idle⟩

/-- Both users visit at once, the second write overwrites the first, and both take their events. -/
def sampleVisits : List (Action Bool) :=
  [.visit true 0, .visit false 0, .apply true 0, .apply false 0,
    .deliver true 0, .deliver false 0, .deliver true 0, .deliver false 0]

omit [DecidableEq ι] in
theorem forecast_sampleNetwork (key : String) (client : Bool) :
    ((sampleNetwork.client client).replica key).forecast = sampleNetwork.decoded key := by
  rw [Replica.forecast_of_queue_nil rfl]
  by_cases hkey : key = "boyana"
  · subst hkey
    have hrecord : sampleNetwork.database "boyana" = some sampleRecord := by
      simp [sampleNetwork]
    rw [decoded, hrecord, Option.map_some, Place.placeFromDictionary_sampleRecord]
    cases client <;> rfl
  · have hrecord : sampleNetwork.database key = none := by
      simp [sampleNetwork, hkey]
    have hentry : (sampleNetwork.client client).app.entry key = none :=
      App.entry_eq_none_iff.mpr fun _ _ ↦ Ne.symm hkey
    have hcopy : (sampleNetwork.client client).app.copy key = none := by
      rw [App.copy, hentry, Option.map_none]
    rw [decoded, hrecord]
    exact hcopy

theorem mirrors_of_runs_sample :
    ∃ final, PartialRun.run (step sampleDistance) sampleNetwork sampleVisits = some final ∧
      (final.client true).app.copy "boyana" = (final.client false).app.copy "boyana" := by
  have hruns : (PartialRun.run (step sampleDistance) sampleNetwork sampleVisits).map
      (fun final ↦ decide (∀ client,
        ((final.client client).app.pending "boyana").length = 0 ∧
          (Feed.about "boyana" (final.client client).inbox).length = 0)) = some true := by
    decide +kernel
  have horder : PartialRun.Guarded (step sampleDistance) InOrder sampleNetwork sampleVisits := by
    decide +kernel
  obtain ⟨final, hrun, hfinal⟩ := Option.map_eq_some_iff.mp hruns
  have hsettled (client : Bool) : final.Settled client "boyana" :=
    (of_decide_eq_true hfinal client).imp List.length_eq_zero_iff.mp List.length_eq_zero_iff.mp
  have hstores (client : Bool) : (sampleNetwork.client client).app.WellFormed := by
    cases client <;> exact ⟨by decide, by decide⟩
  exact ⟨final, hrun, (mirrors_of_runs sampleDistance hstores forecast_sampleNetwork horder hrun
    "boyana").2 true false (hsettled true) (hsettled false)⟩

end Runs

end Network

end BeenHere
