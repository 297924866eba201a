import BeenHere.Locator

/-!
# Clients and the database

Any number of apps share one database. A write stays in the outbox of its client until the server
applies it; the server then puts the new snapshot into the inbox of every client, and a client that
takes an event from its inbox runs its observer. Applying and delivering take the write and the
event at any position, so no order is built in. A removed node raises no event that an app observes.

`exists_of_handle` says what an observer does to an app, and `setClient` and `commit` are the only
ways in which a step changes the network; the rules at the end carry a property of every client over
both.
-/

set_option autoImplicit false
set_option relaxedAutoImplicit false

namespace BeenHere

open Firebase ObjectHeap

inductive EventKind
  | childAdded
  | childChanged
  deriving DecidableEq

/-- A snapshot of the node `key` for one of the observers. -/
structure Event where
  kind : EventKind
  key : String
  child : Children Value

/-- Runs the observer that an event is for. -/
def App.observe (app : App) (event : Event) : App.Method App :=
  match event.kind with
  | .childAdded => app.childAdded event.key event.child
  | .childChanged => app.childChanged event.key event.child

def App.handle (app : App) (event : Event) : Option App := (app.observe event).result

/-- An app, its locator page, and the events raised for it and not yet delivered. -/
structure Client where
  app : App
  view : Locator
  inbox : List Event

/-- The nodes below `Places`, and the clients. -/
structure Network (ι : Type) where
  database : String → Option Record
  client : ι → Client

namespace Network

/-- A step of the network. `apply` and `deliver` name a position in an outbox and in an inbox.
`observe` raises one event with the current snapshot of a node for one client: the replay of a new
pair of observers, or the copy of an event for a further pair. -/
inductive Action (ι : Type)
  | visit (client : ι) (place : Ref)
  | rate (client : ι) (place : Ref) (rating : ℤ)
  | locate (client : ι) (fix : Fix)
  | apply (client : ι) (index : ℕ)
  | deliver (client : ι) (index : ℕ)
  | observe (client : ι) (kind : EventKind) (key : String)
  | remove (key : String)

variable {ι : Type} [DecidableEq ι]

def setClient (network : Network ι) (client : ι) (changed : Client) : Network ι :=
  { network with client := Function.update network.client client changed }

/-- The record of a node, which has no children if the node does not exist. -/
def record (network : Network ι) (key : String) : Record :=
  (network.database key).getD Record.absent

/-- The server applies a write and raises an event with the new snapshot for every client. -/
def commit (network : Network ι) (write : Write) : Network ι :=
  let updated := (network.record write.key).updateChildValues write.values
  let kind : EventKind :=
    if (network.database write.key).isSome then .childChanged else .childAdded
  { database := Function.update network.database write.key (some updated)
    client := fun client ↦
      { network.client client with
        inbox := (network.client client).inbox ++ [⟨kind, write.key, updated.snapshot⟩] } }

section Step

variable (distanceBetween : Point → Point → ℚ)

def step (network : Network ι) : Action ι → Option (Network ι)
  | .visit client place =>
    let state := network.client client
    some (network.setClient client { state with app := (state.app.visit place).2 })
  | .rate client place rating =>
    let state := network.client client
    some (network.setClient client { state with app := state.app.rate place rating })
  | .locate client fix =>
    let state := network.client client
    let moved := locationUpdated distanceBetween state.app state.view fix
    some (network.setClient client { state with app := moved.1, view := moved.2 })
  | .apply client index =>
    let state := network.client client
    state.app.outbox[index]?.map fun write ↦
      (network.setClient client
        { state with
          app := { state.app with outbox := state.app.outbox.eraseIdx index } }).commit write
  | .deliver client index =>
    let state := network.client client
    state.inbox[index]?.bind fun event ↦
      (state.app.handle event).map fun app ↦
        network.setClient client { state with app, inbox := state.inbox.eraseIdx index }
  | .observe client kind key =>
    let state := network.client client
    (network.database key).map fun record ↦
      network.setClient client
        { state with inbox := state.inbox ++ [⟨kind, key, record.snapshot⟩] }
  | .remove key => some { network with database := Function.update network.database key none }

end Step

end Network

/-! ### What an observer does -/

/-- What an observer does. It decodes the snapshot into a fresh object, image data aside; the user,
the outbox and the old objects stay. -/
theorem App.exists_of_handle {app next : App} {event : Event} (h : app.handle event = some next) :
    ∃ decoded newPlace places requests listPages,
      Place.placeFromDictionary event.child event.key = some decoded ∧
      newPlace.withoutImages = decoded.withoutImages ∧
      next = { app with
        heap := app.heap.alloc newPlace
        places := places
        requests := requests
        listPages := listPages } := by
  unfold handle observe at h
  split at h
  · obtain ⟨decoded, newPlace, requests, hdecoded, hsame, rfl⟩ := exists_of_childAdded h
    exact ⟨decoded, newPlace, _, requests, _, hdecoded, hsame, rfl⟩
  · obtain ⟨newPlace, requests, hdecoded, _, rfl⟩ := exists_of_childChanged h
    exact ⟨newPlace, newPlace, _, requests, _, hdecoded, rfl, rfl⟩

theorem App.WellFormed.handle {app next : App} (hwell : app.WellFormed) {event : Event}
    (h : app.handle event = some next) : next.WellFormed := by
  unfold App.handle App.observe at h
  split at h
  · exact hwell.childAdded h
  · exact hwell.childChanged h

/-- Assumes: a well formed store, and an event of `childChanged` or for a key that the store does
not hold. After the event every entry is the fresh object or an old entry with another key. -/
theorem App.mem_places_of_handle {app next : App} (hwell : app.WellFormed) {event : Event}
    (hkind : event.kind = .childChanged ∨
      containsKey app.heap app.places event.key = false)
    (h : app.handle event = some next) {ref : Ref} (href : ref ∈ next.places) :
    ref = app.heap.next ∨ ref ∈ app.places ∧ (app.heap.read ref).key ≠ event.key := by
  cases hevent : event.kind with
  | childAdded =>
    have habsent := containsKey_eq_false_iff.mp
      (hkind.resolve_left (by rw [hevent]; exact EventKind.noConfusion))
    simp only [handle, observe, hevent] at h
    obtain ⟨decoded, newPlace, requests, _, _, rfl⟩ := exists_of_childAdded h
    simp only [places_refresh] at href
    split_ifs at href
    · rcases List.mem_append.mp href with hold | hnew
      · exact Or.inr ⟨hold, habsent ref hold⟩
      · exact Or.inl (List.mem_singleton.mp hnew)
    · exact Or.inr ⟨href, habsent ref href⟩
  | childChanged =>
    simp only [handle, observe, hevent] at h
    obtain ⟨newPlace, requests, hdecoded, _, rfl⟩ := exists_of_childChanged h
    have hkeys : (app.places.map fun ref ↦ ((app.heap.alloc newPlace).read ref).key).Nodup := by
      rw [hwell.map_key_alloc]
      exact hwell.keys
    refine (mem_replaceEntry hkeys href).imp_right fun ⟨hold, hne⟩ ↦ ⟨hold, ?_⟩
    rw [Heap.read_alloc_of_lt _ _ (hwell.live ref hold), Heap.read_alloc_next,
      (Place.decodes_iff.mp hdecoded).key] at hne
    exact hne

namespace Network

/-! ### Rules for steps -/

variable {ι : Type} {network : Network ι}

@[simp] theorem app_commit (write : Write) (other : ι) :
    ((network.commit write).client other).app = (network.client other).app := rfl

@[simp] theorem database_commit_self (write : Write) : (network.commit write).database write.key =
    some ((network.record write.key).updateChildValues write.values) :=
  Function.update_self ..

theorem database_commit_of_ne {write : Write} {key : String} (hne : key ≠ write.key) :
    (network.commit write).database key = network.database key :=
  Function.update_of_ne hne ..

@[simp] theorem record_commit_self (write : Write) : (network.commit write).record write.key =
    (network.record write.key).updateChildValues write.values := by
  rw [record, database_commit_self, Option.getD_some]

theorem record_commit_of_ne {write : Write} {key : String} (hne : key ≠ write.key) :
    (network.commit write).record key = network.record key := by
  rw [record, database_commit_of_ne hne, record]

variable [DecidableEq ι] {client : ι} {changed : Client}

@[simp] theorem client_setClient_self :
    (network.setClient client changed).client client = changed :=
  Function.update_self ..

theorem client_setClient_of_ne {other : ι} (hne : other ≠ client) :
    (network.setClient client changed).client other = network.client other :=
  Function.update_of_ne hne ..

/-- A property of the changed client and of every client holds of every client afterwards. -/
theorem forall_setClient (property : Client → Prop) (hchanged : property changed)
    (hclients : ∀ other, property (network.client other)) (other : ι) :
    property ((network.setClient client changed).client other) := by
  by_cases hother : other = client
  · rw [hother, client_setClient_self]
    exact hchanged
  · rw [client_setClient_of_ne hother]
    exact hclients other

/-- Two devices, of the users `ana` and `boris`, whose stores hold `samplePlace`, and the database
that holds its record. -/
def sampleNetwork : Network Bool where
  database := Function.update (fun _ ↦ none) "boyana" (some sampleRecord)
  client first :=
    { app := { sampleApp with currentUser := some (if first then "ana" else "boris") }
      view := Locator.loaded
      inbox := [] }

end Network

end BeenHere
