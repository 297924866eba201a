import BeenHere.Library.PartialRun
import BeenHere.Traps

/-!
# The observers of one app

Every list page that is loaded registers a further pair of observers, which is never removed. A new
pair is first sent `childAdded` for every node that exists, in some order, and then every later
event; the pairs are served in any order, each in its own. If every snapshot is decoded, to a place
with an image whose first name leads to no directory, no observer traps, whatever is delivered when;
and when everything has been delivered the store has one entry for each node, in the order in which
the nodes first arrived, and each entry decodes the current snapshot of its node (`mirrors_of_run`).
If the replays come in the order of the additions, so do the entries. Neither need hold otherwise
(`mirrors_counterexample`).

The invariant (`Feed.Invariant`) is about what is still queued: a pair that has not delivered the
addition of an unknown node has it before every change of that node, the last event for a node in
each queue has its current snapshot, and an entry that is not current is followed by a change.
-/

set_option autoImplicit false
set_option relaxedAutoImplicit false

namespace BeenHere

open Firebase ObjectHeap

/-! ### No observer traps -/

namespace App

/-- A page that shows only visited places is open only under a user who is signed in. -/
def CanList (app : App) : Prop :=
  ∀ page list, app.listPages page = some list → list.showOnlyVisited = true →
    app.currentUser.isSome

variable {app : App}

theorem CanList.refresh (h : app.CanList) : app.refresh.CanList := by
  intro page list hlist hvisited
  simp only [App.refresh] at hlist
  split_ifs at hlist with hpage
  · obtain ⟨before, hbefore, rfl⟩ := Option.map_eq_some_iff.mp hlist
    exact h page before hbefore hvisited
  · exact h page list hlist hvisited

theorem CanList.isSome_of_showsVisited (h : app.CanList) (hvisited : app.ShowsVisited) :
    app.currentUser.isSome := by
  obtain ⟨page, list, _, hlist, honly⟩ := hvisited
  exact h page list hlist honly

/-- The observer of `childAdded` does not trap on a complete snapshot. -/
theorem CanList.exists_childAdded (h : app.CanList) {key : String} {child : Children Value}
    (hchild : Complete app.directories key child) :
    ∃ next, (app.childAdded key child).result = some next :=
  Option.isSome_iff_exists.mp (isSome_childAdded_iff.mpr ⟨hchild, h.isSome_of_showsVisited⟩)

/-- The observer of `childChanged` does not trap on a snapshot with an image unless the store is
empty. -/
theorem CanList.exists_childChanged (h : app.CanList) {key : String} {child : Children Value}
    (hchild : HasImage key child) (hplaces : app.places ≠ []) :
    ∃ next, (app.childChanged key child).result = some next :=
  Option.isSome_iff_exists.mp
    (isSome_childChanged_iff.mpr ⟨hchild, hplaces, h.isSome_of_showsVisited⟩)

theorem CanList.handle (h : app.CanList) {next : App} {event : Event}
    (hnext : app.handle event = some next) : next.CanList := by
  unfold App.handle App.observe at hnext
  split at hnext
  · obtain ⟨_, newPlace, requests, _, _, rfl⟩ := exists_of_childAdded hnext
    exact CanList.refresh h
  · obtain ⟨newPlace, requests, _, _, rfl⟩ := exists_of_childChanged hnext
    exact CanList.refresh h

theorem isSome_currentUser_of_visitedPlaces {visited : List Ref}
    (h : app.visitedPlaces = some visited) (hvisited : visited ≠ []) : app.currentUser.isSome := by
  refine (isSome_visitedPlaces_iff.mp (Option.isSome_of_eq_some h)).resolve_right fun hempty ↦ ?_
  rw [visitedPlaces, hempty] at h
  exact hvisited (Option.some.inj h).symm

end App

/-! ### The feed of one app -/

/-- The nodes in the order in which they were added, with their current snapshots; the queue of each
pair of observers, oldest event first; the app; and the keys in the order in which they first
arrived at the app. -/
structure Feed where
  nodes : List String
  snapshot : String → Children Value
  queues : List (List Event)
  app : App
  arrivals : List String

namespace Feed

/-- `replay` lists the keys of the nodes in the order in which a new pair of observers is sent
them. `deliver` names a pair. -/
inductive Action
  | add (key : String) (child : Children Value)
  | change (key : String) (child : Children Value)
  | openList (replay : List String)
  | openMyPlaces (replay : List String)
  | closeList (page : PageId)
  | deliver (index : ℕ)

/-- The app after launch, with the images that an earlier run has left in the documents
directory. -/
def launched (currentUser : Option String) (documents : Dictionary String Data)
    (directories : String → Bool) : Feed where
  nodes := []
  snapshot := fun _ _ ↦ none
  queues := []
  app := App.launched currentUser documents directories
  arrivals := []

/-- Every pair of observers is sent an event. -/
def raise (feed : Feed) (event : Event) : Feed :=
  { feed with queues := feed.queues.map fun queue ↦ queue ++ [event] }

/-- Loads a list page, which registers a pair of observers. -/
def load (feed : Feed) (showOnlyVisited : Bool) (replay : List String) : Option Feed :=
  if replay.Perm feed.nodes then
    (feed.app.openList showOnlyVisited).result.map fun app ↦
      { feed with
        app
        queues := feed.queues ++
          [replay.map fun key ↦ ⟨.childAdded, key, feed.snapshot key⟩] }
  else none

def step (feed : Feed) : Action → Option Feed
  | .add key child =>
    if key ∈ feed.nodes then none
    else some (raise { feed with
      nodes := feed.nodes ++ [key]
      snapshot := Function.update feed.snapshot key child } ⟨.childAdded, key, child⟩)
  | .change key child =>
    if key ∈ feed.nodes then
      some (raise { feed with snapshot := Function.update feed.snapshot key child }
        ⟨.childChanged, key, child⟩)
    else none
  | .openList replay => feed.load false replay
  | .openMyPlaces replay =>
    feed.app.visitedPlaces.bind fun visited ↦
      if visited.length > 0 then feed.load true replay else some feed
  | .closeList page => some { feed with app := feed.app.closeList page }
  | .deliver index =>
    match feed.queues[index]? with
    | some (event :: rest) =>
      (feed.app.handle event).map fun app ↦
        { feed with
          app
          queues := feed.queues.set index rest
          arrivals :=
            if event.kind = .childAdded ∧ event.key ∉ feed.arrivals then
              feed.arrivals ++ [event.key]
            else feed.arrivals }
    | _ => none

/-- Every snapshot of an action is complete. -/
def Action.Complete (directories : String → Bool) : Action → Prop
  | .add key child | .change key child => BeenHere.Complete directories key child
  | _ => True

/-! ### Queues -/

/-- The events of a queue for one node. -/
def about (key : String) (queue : List Event) : List Event :=
  queue.filter fun event ↦ event.key = key

theorem about_append (key : String) (first second : List Event) :
    about key (first ++ second) = about key first ++ about key second := List.filter_append ..

theorem about_cons_self (event : Event) (rest : List Event) :
    about event.key (event :: rest) = event :: about event.key rest :=
  List.filter_cons_of_pos (by simp)

theorem about_cons_of_ne {event : Event} {key : String} (hne : event.key ≠ key)
    (rest : List Event) : about key (event :: rest) = about key rest :=
  List.filter_cons_of_neg (by simpa using hne)

theorem mem_about {key : String} {event : Event} {queue : List Event} :
    event ∈ about key queue ↔ event ∈ queue ∧ event.key = key := by
  simp [about]

/-- What the queue of a pair of observers looks like: the snapshots are complete snapshots of nodes,
the last event for a node has its current snapshot, and every event for a node but the first is a
change. -/
structure QueueInvariant (directories : String → Bool) (feed : Feed) (queue : List Event) :
    Prop where
  known : ∀ event ∈ queue,
    event.key ∈ feed.nodes ∧ BeenHere.Complete directories event.key event.child
  latest : ∀ key event, (about key queue).getLast? = some event →
    event.child = feed.snapshot key
  changes : ∀ key, ∀ event ∈ (about key queue).tail, event.kind = .childChanged

/-- The invariant. -/
structure Invariant (directories : String → Bool) (feed : Feed) : Prop where
  files : feed.app.directories = directories
  nodes : feed.nodes.Nodup
  complete : ∀ key ∈ feed.nodes, BeenHere.Complete directories key (feed.snapshot key)
  store : feed.app.WellFormed
  list : feed.app.CanList
  known : ∀ ref ∈ feed.app.places, (feed.app.heap.read ref).key ∈ feed.nodes
  arrivals : feed.app.places.map (fun ref ↦ (feed.app.heap.read ref).key) = feed.arrivals
  queue : ∀ queue ∈ feed.queues, QueueInvariant directories feed queue
  observed : feed.queues = [] → feed.app.places = []
  addition : ∀ key ∈ feed.nodes, key ∉ feed.arrivals → ∀ queue ∈ feed.queues,
    ((about key queue).head?).map Event.kind = some .childAdded
  current : ∀ ref ∈ feed.app.places,
    Place.placeFromDictionary (feed.snapshot (feed.app.heap.read ref).key)
      (feed.app.heap.read ref).key = some (feed.app.heap.read ref).withoutImages ∨
    ∃ queue ∈ feed.queues, ∃ event ∈ queue, event.key = (feed.app.heap.read ref).key ∧
      event.kind = .childChanged

variable {directories : String → Bool} {feed next : Feed} {key : String} {child : Children Value}

/-- A queue after an event for a node with its new snapshot, which is a change unless the queue has
no event for the node. -/
theorem QueueInvariant.append {queue : List Event} (h : QueueInvariant directories feed queue)
    {kind : EventKind} (hnodes : ∀ other ∈ feed.nodes, other ∈ next.nodes) (hkey : key ∈ next.nodes)
    (hsnapshot : next.snapshot = Function.update feed.snapshot key child)
    (hchild : BeenHere.Complete directories key child)
    (hkind : about key queue = [] ∨ kind = .childChanged) :
    QueueInvariant directories next (queue ++ [⟨kind, key, child⟩]) := by
  have hself : about key [(⟨kind, key, child⟩ : Event)] = [⟨kind, key, child⟩] :=
    about_cons_self ⟨kind, key, child⟩ []
  have hother {other : String} (hne : other ≠ key) :
      about other [(⟨kind, key, child⟩ : Event)] = [] := by
    have hevent : (⟨kind, key, child⟩ : Event).key ≠ other := Ne.symm hne
    exact about_cons_of_ne hevent []
  refine ⟨fun event hevent ↦ ?_, fun other event hlast ↦ ?_, fun other event hevent ↦ ?_⟩
  · rcases List.mem_append.mp hevent with hold | hnew
    · exact ⟨hnodes _ (h.known event hold).1, (h.known event hold).2⟩
    · rw [List.mem_singleton.mp hnew]
      exact ⟨hkey, hchild⟩
  · rw [about_append] at hlast
    by_cases hsame : other = key
    · rw [hsame, hself, List.getLast?_append, List.getLast?_singleton, Option.some_or,
        Option.some.injEq] at hlast
      rw [← hlast, hsnapshot, hsame, Function.update_self]
    · rw [hother hsame, List.append_nil] at hlast
      rw [hsnapshot, Function.update_of_ne hsame]
      exact h.latest other event hlast
  · rw [about_append] at hevent
    by_cases hsame : other = key
    · rw [hsame, hself] at hevent
      rcases hkind with hempty | hchanged
      · rw [hempty] at hevent
        cases hevent
      · cases hqueue : about key queue with
        | nil =>
          rw [hqueue] at hevent
          cases hevent
        | cons first rest =>
          rw [hqueue, List.cons_append, List.tail_cons] at hevent
          rcases List.mem_append.mp hevent with hold | hnew
          · exact h.changes key event (by rw [hqueue]; exact hold)
          · rw [List.mem_singleton.mp hnew]
            exact hchanged
    · rw [hother hsame, List.append_nil] at hevent
      exact h.changes other event hevent

/-- The queue of a new pair of observers. -/
theorem queueInvariant_replay {replay : List String} (hnodes : feed.nodes.Nodup)
    (hcomplete : ∀ key ∈ feed.nodes, BeenHere.Complete directories key (feed.snapshot key))
    (hreplay : replay.Perm feed.nodes) :
    QueueInvariant directories feed
      (replay.map fun key ↦ ⟨.childAdded, key, feed.snapshot key⟩) := by
  refine ⟨fun event hevent ↦ ?_, fun key event hlast ↦ ?_, fun key event hevent ↦ ?_⟩
  · obtain ⟨key, hkey, rfl⟩ := List.mem_map.mp hevent
    exact ⟨hreplay.mem_iff.mp hkey, hcomplete key (hreplay.mem_iff.mp hkey)⟩
  · obtain ⟨hevent, hkey⟩ := mem_about.mp (List.mem_of_getLast? hlast)
    obtain ⟨other, _, rfl⟩ := List.mem_map.mp hevent
    rw [← hkey]
  · -- a replay has one event for each node
    have hlength : (about key (replay.map fun key ↦
        (⟨.childAdded, key, feed.snapshot key⟩ : Event))).length ≤ 1 := by
      rw [about, List.filter_map, List.length_map]
      have hcount : (replay.filter fun other ↦ other = key).length = replay.count key := by
        rw [← List.countP_eq_length_filter]
        rfl
      exact hcount.trans_le
        (List.nodup_iff_count_le_one.mp (hreplay.nodup_iff.mpr hnodes) key)
    obtain ⟨first, rest, hqueue⟩ := List.exists_cons_of_ne_nil (List.ne_nil_of_mem
      (List.mem_of_mem_tail hevent))
    rw [hqueue] at hlength hevent
    rw [List.length_cons] at hlength
    have hempty : rest = [] := List.length_eq_zero_iff.mp (by omega)
    rw [List.tail_cons, hempty] at hevent
    cases hevent

/-- The queue of a pair of observers after its first event has been delivered. -/
theorem QueueInvariant.tail {event : Event} {rest : List Event}
    (h : QueueInvariant directories feed (event :: rest)) :
    QueueInvariant directories feed rest := by
  refine ⟨fun other hother ↦ h.known other (List.mem_cons_of_mem _ hother),
    fun key other hlast ↦ h.latest key other ?_, fun key other hother ↦ h.changes key other ?_⟩
  · by_cases hkey : event.key = key
    · have hne : about key rest ≠ [] := by
        intro hempty
        rw [hempty] at hlast
        cases hlast
      rw [← hkey] at hlast hne ⊢
      rw [about_cons_self, List.getLast?_cons_of_ne_nil hne]
      exact hlast
    · rw [about_cons_of_ne hkey]
      exact hlast
  · by_cases hkey : event.key = key
    · rw [← hkey] at hother ⊢
      rw [about_cons_self]
      exact List.mem_of_mem_tail hother
    · rw [about_cons_of_ne hkey]
      exact hother

/-! ### Steps -/

/-- Events about another node do not matter for a node. -/
theorem about_append_of_ne {other : String} (hne : other ≠ key) (queue : List Event)
    (kind : EventKind) : about other (queue ++ [⟨kind, key, child⟩]) = about other queue := by
  have hevent : (⟨kind, key, child⟩ : Event).key ≠ other := Ne.symm hne
  rw [about_append, about_cons_of_ne hevent]
  exact List.append_nil _

/-- A new node. -/
theorem Invariant.add (h : Invariant directories feed) (hkey : key ∉ feed.nodes)
    (hchild : BeenHere.Complete directories key child) :
    Invariant directories (raise { feed with
      nodes := feed.nodes ++ [key]
      snapshot := Function.update feed.snapshot key child } ⟨.childAdded, key, child⟩) := by
  have hsnapshot {other : String} (hother : other ∈ feed.nodes) :
      Function.update feed.snapshot key child other = feed.snapshot other := by
    have hne : other ≠ key := fun heq ↦ hkey (heq ▸ hother)
    exact Function.update_of_ne hne ..
  have hunknown {queue : List Event} (hqueue : queue ∈ feed.queues) : about key queue = [] := by
    refine List.filter_eq_nil_iff.mpr fun event hevent ↦ ?_
    have hne : event.key ≠ key := fun heq ↦
      hkey (heq ▸ ((h.queue queue hqueue).known event hevent).1)
    simpa using hne
  refine ⟨h.files, ?_, fun other hother ↦ ?_, h.store, h.list,
    fun ref href ↦ List.mem_append_left _ (h.known ref href), h.arrivals, fun queue hqueue ↦ ?_,
    fun hempty ↦ h.observed (List.map_eq_nil_iff.mp hempty),
    fun other hother hnew queue hqueue ↦ ?_, fun ref href ↦ ?_⟩
  · refine List.nodup_append.mpr
      ⟨h.nodes, List.nodup_singleton _, fun other hother second hsecond ↦ ?_⟩
    rw [List.mem_singleton.mp hsecond]
    exact fun heq ↦ hkey (heq ▸ hother)
  · rcases List.mem_append.mp hother with hold | hnew
    · simp only [raise, hsnapshot hold]
      exact h.complete other hold
    · rw [List.mem_singleton.mp hnew]
      simp only [raise, Function.update_self]
      exact hchild
  · obtain ⟨old, hold, rfl⟩ := List.mem_map.mp hqueue
    exact (h.queue old hold).append (fun other hother ↦ List.mem_append_left _ hother)
      (List.mem_append_right _ List.mem_cons_self) rfl hchild (Or.inl (hunknown hold))
  · obtain ⟨old, hold, rfl⟩ := List.mem_map.mp hqueue
    by_cases hsame : other = key
    · rw [hsame, about_append, hunknown hold]
      exact congrArg (fun events ↦ (List.head? events).map Event.kind)
        (about_cons_self ⟨.childAdded, key, child⟩ [])
    · rw [about_append_of_ne hsame]
      have hold' : other ∈ feed.nodes := (List.mem_append.mp hother).resolve_right
        fun hmem ↦ hsame (List.mem_singleton.mp hmem)
      exact h.addition other hold' hnew old hold
  · refine (h.current ref href).imp (fun hcurrent ↦ ?_) fun ⟨queue, hqueue, event, hevent, hrest⟩ ↦
      ⟨_, List.mem_map_of_mem hqueue, event, List.mem_append_left _ hevent, hrest⟩
    simp only [raise, hsnapshot (h.known ref href)]
    exact hcurrent

/-- A change of a node. -/
theorem Invariant.change (h : Invariant directories feed) (hkey : key ∈ feed.nodes)
    (hchild : BeenHere.Complete directories key child) :
    Invariant directories (raise { feed with snapshot := Function.update feed.snapshot key child }
      ⟨.childChanged, key, child⟩) := by
  refine ⟨h.files, h.nodes, fun other hother ↦ ?_, h.store, h.list, h.known, h.arrivals,
    fun queue hqueue ↦ ?_, fun hempty ↦ h.observed (List.map_eq_nil_iff.mp hempty),
    fun other hother hnew queue hqueue ↦ ?_, fun ref href ↦ ?_⟩
  · by_cases hsame : other = key
    · rw [hsame]
      simp only [raise, Function.update_self]
      exact hchild
    · simp only [raise, Function.update_of_ne hsame]
      exact h.complete other hother
  · obtain ⟨old, hold, rfl⟩ := List.mem_map.mp hqueue
    exact (h.queue old hold).append (fun _ hother ↦ hother) hkey rfl hchild (Or.inr rfl)
  · obtain ⟨old, hold, rfl⟩ := List.mem_map.mp hqueue
    have hfirst := h.addition other hother hnew old hold
    rw [about_append, List.head?_append]
    cases hhead : (about other old).head? with
    | none =>
      rw [hhead] at hfirst
      cases hfirst
    | some event =>
      rw [hhead] at hfirst
      exact hfirst
  · by_cases hsame : (feed.app.heap.read ref).key = key
    · -- the entry is followed by this change in the queue of every pair
      obtain ⟨queue, hqueue⟩ := List.exists_mem_of_ne_nil feed.queues fun hempty ↦ by
        have hnone : ref ∈ feed.app.places := href
        rw [h.observed hempty] at hnone
        cases hnone
      exact Or.inr ⟨_, List.mem_map_of_mem hqueue, _, List.mem_append_right _ List.mem_cons_self,
        hsame.symm, rfl⟩
    · refine (h.current ref href).imp (fun hcurrent ↦ ?_)
        fun ⟨queue, hqueue, event, hevent, hrest⟩ ↦
          ⟨_, List.mem_map_of_mem hqueue, event, List.mem_append_left _ hevent, hrest⟩
      simp only [raise, Function.update_of_ne hsame]
      exact hcurrent

/-- A list page is loaded. -/
theorem Invariant.load (h : Invariant directories feed) {showOnlyVisited : Bool}
    {replay : List String}
    (hlist : showOnlyVisited = true → feed.app.currentUser.isSome)
    (hnext : feed.load showOnlyVisited replay = some next) : Invariant directories next := by
  unfold Feed.load at hnext
  split_ifs at hnext with hreplay
  obtain ⟨app, happ, rfl⟩ := Option.map_eq_some_iff.mp hnext
  obtain ⟨places, hplaces, rfl⟩ := App.exists_of_openList happ
  refine ⟨h.files, h.nodes, h.complete, ⟨h.store.live, h.store.keys⟩,
    fun page list hpage hvisited ↦ ?_, h.known, h.arrivals, fun queue hqueue ↦ ?_,
    fun hempty ↦ absurd hempty (by simp), fun key hkey hnew queue hqueue ↦ ?_, fun ref href ↦ ?_⟩
  · by_cases hsame : page = feed.app.nextPage
    · simp only [hsame, Function.update_self, Option.some.injEq] at hpage
      rw [← hpage] at hvisited
      exact hlist hvisited
    · simp only [Function.update_of_ne hsame] at hpage
      exact h.list page list hpage hvisited
  · rcases List.mem_append.mp hqueue with hold | hnew
    · have hqueue := h.queue queue hold
      exact ⟨hqueue.known, hqueue.latest, hqueue.changes⟩
    · rw [List.mem_singleton.mp hnew]
      have hqueue := queueInvariant_replay h.nodes h.complete hreplay
      exact ⟨hqueue.known, hqueue.latest, hqueue.changes⟩
  · rcases List.mem_append.mp hqueue with hold | hreplayed
    · exact h.addition key hkey hnew queue hold
    · rw [List.mem_singleton.mp hreplayed]
      cases hhead : (about key (replay.map fun key ↦
          (⟨.childAdded, key, feed.snapshot key⟩ : Event))).head? with
      | none =>
        have hmem : (⟨.childAdded, key, feed.snapshot key⟩ : Event) ∈ about key (replay.map
            fun key ↦ ⟨.childAdded, key, feed.snapshot key⟩) :=
          mem_about.mpr ⟨List.mem_map.mpr ⟨key, hreplay.mem_iff.mpr hkey, rfl⟩, rfl⟩
        rw [List.head?_eq_none_iff.mp hhead] at hmem
        cases hmem
      | some event =>
        obtain ⟨hevent, _⟩ := mem_about.mp (List.mem_of_head? hhead)
        obtain ⟨other, _, rfl⟩ := List.mem_map.mp hevent
        rfl
  · exact (h.current ref href).imp_right fun ⟨queue, hqueue, hrest⟩ ↦
      ⟨queue, List.mem_append_left _ hqueue, hrest⟩

/-- The first event of a queue has the current snapshot, or a change follows. -/
theorem QueueInvariant.latest_or_changed {event : Event} {rest : List Event}
    (h : QueueInvariant directories feed (event :: rest)) :
    event.child = feed.snapshot event.key ∨
      ∃ other ∈ rest, other.key = event.key ∧ other.kind = .childChanged := by
  cases hrest : about event.key rest with
  | nil => exact Or.inl (h.latest event.key event (by rw [about_cons_self, hrest]; rfl))
  | cons other others =>
    have hother : other ∈ about event.key rest := by
      rw [hrest]
      exact List.mem_cons_self
    obtain ⟨hmem, hkey⟩ := mem_about.mp hother
    exact Or.inr
      ⟨other, hmem, hkey, h.changes event.key other (about_cons_self event rest ▸ hother)⟩

section Deliver

variable {index : ℕ} {event : Event} {rest : List Event} {app : App}

/-- The queues after a delivery: the one that was served has lost its first event. -/
theorem mem_or_eq_of_mem_queues {queue : List Event}
    (hserved : feed.queues[index]? = some (event :: rest)) (hqueue : queue ∈ feed.queues) :
    queue ∈ feed.queues.set index rest ∨ queue = event :: rest ∧
      rest ∈ feed.queues.set index rest := by
  obtain ⟨position, hposition⟩ := List.mem_iff_getElem?.mp hqueue
  by_cases hsame : index = position
  · rw [← hsame, hserved, Option.some.injEq] at hposition
    have hlt : index < feed.queues.length := (List.getElem?_eq_some_iff.mp hserved).1
    exact Or.inr ⟨hposition.symm, List.mem_set hlt rest⟩
  · refine Or.inl (List.mem_iff_getElem?.mpr ⟨position, ?_⟩)
    rw [List.getElem?_set_ne hsame]
    exact hposition

/-- A delivery. Assumes: every entry afterwards decodes the snapshot of the event, or is an old
entry with, after a change, another key. -/
theorem Invariant.delivered (h : Invariant directories feed)
    (hserved : feed.queues[index]? = some (event :: rest)) (hstore : app.WellFormed)
    (hlist : app.CanList) (hfiles : app.directories = feed.app.directories)
    {arrivals : List String}
    (harrivals : app.places.map (fun ref ↦ (app.heap.read ref).key) = arrivals)
    (hold : ∀ key ∈ feed.arrivals, key ∈ arrivals) (hnew : event.key ∈ arrivals)
    (hentries : ∀ ref ∈ app.places,
      (app.heap.read ref).key = event.key ∧
        Place.placeFromDictionary event.child event.key =
          some (app.heap.read ref).withoutImages ∨
      ref ∈ feed.app.places ∧ app.heap.read ref = feed.app.heap.read ref ∧
        (event.kind = .childChanged → (feed.app.heap.read ref).key ≠ event.key)) :
    Invariant directories { feed with app, queues := feed.queues.set index rest, arrivals } := by
  have hqueue := h.queue _ (List.mem_of_getElem? hserved)
  have hknown := hqueue.known event List.mem_cons_self
  refine ⟨hfiles.trans h.files, h.nodes, h.complete, hstore, hlist, fun ref href ↦ ?_, harrivals,
    fun queue hmem ↦ ?_, fun hempty ↦ ?_, fun key hkey habsent queue hmem ↦ ?_, fun ref href ↦ ?_⟩
  · rcases hentries ref href with ⟨hkey, _⟩ | ⟨hmem, hsame, _⟩
    · exact hkey ▸ hknown.1
    · exact hsame ▸ h.known ref hmem
  · rcases List.mem_or_eq_of_mem_set hmem with hmem | rfl
    · have hother := h.queue queue hmem
      exact ⟨hother.known, hother.latest, hother.changes⟩
    · exact ⟨hqueue.tail.known, hqueue.tail.latest, hqueue.tail.changes⟩
  · have hnone : feed.queues = [] := by simpa using hempty
    rw [hnone] at hserved
    cases hserved
  · have hother : key ∉ feed.arrivals := fun hmem ↦ habsent (hold key hmem)
    have hne : event.key ≠ key := fun heq ↦ habsent (heq ▸ hnew)
    rcases List.mem_or_eq_of_mem_set hmem with hmem | rfl
    · exact h.addition key hkey hother queue hmem
    · have hfirst := h.addition key hkey hother _ (List.mem_of_getElem? hserved)
      rwa [about_cons_of_ne hne] at hfirst
  · rcases hentries ref href with ⟨hkey, hdecoded⟩ | ⟨hmem, hsame, hchange⟩
    · rw [hkey]
      rcases hqueue.latest_or_changed with hlatest | ⟨other, hother, hotherKey, hkind⟩
      · rw [← hlatest]
        exact Or.inl hdecoded
      · rcases mem_or_eq_of_mem_queues hserved (List.mem_of_getElem? hserved) with hset | ⟨_, hset⟩
        · exact Or.inr ⟨_, hset, other, List.mem_cons_of_mem _ hother, hotherKey, hkind⟩
        · exact Or.inr ⟨rest, hset, other, hother, hotherKey, hkind⟩
    · rw [hsame]
      refine (h.current ref hmem).imp_right fun ⟨queue, hmemQueue, other, hother, hkey, hkind⟩ ↦ ?_
      rcases mem_or_eq_of_mem_queues hserved hmemQueue with hset | ⟨rfl, hset⟩
      · exact ⟨queue, hset, other, hother, hkey, hkind⟩
      · rcases List.mem_cons.mp hother with rfl | hrest
        · exact absurd hkey.symm (hchange hkind)
        · exact ⟨rest, hset, other, hrest, hkey, hkind⟩

/-- A change is delivered only for an entry of the store. -/
theorem Invariant.mem_arrivals (h : Invariant directories feed)
    (hserved : feed.queues[index]? = some (event :: rest)) (hkind : event.kind = .childChanged) :
    event.key ∈ feed.arrivals := by
  have hqueue := List.mem_of_getElem? hserved
  by_contra habsent
  have hfirst := h.addition event.key ((h.queue _ hqueue).known event List.mem_cons_self).1 habsent
    _ hqueue
  rw [about_cons_self, List.head?_cons, Option.map_some, hkind] at hfirst
  cases hfirst

/-- No observer traps. -/
theorem Invariant.exists_handle (h : Invariant directories feed)
    (hserved : feed.queues[index]? = some (event :: rest)) :
    ∃ next, feed.app.handle event = some next := by
  have hchild :=
    ((h.queue _ (List.mem_of_getElem? hserved)).known event List.mem_cons_self).2
  rw [← h.files] at hchild
  unfold App.handle App.observe
  cases hkind : event.kind with
  | childAdded => exact h.list.exists_childAdded hchild
  | childChanged =>
    refine h.list.exists_childChanged hchild.hasImage fun hempty ↦ ?_
    have hmem := h.mem_arrivals hserved hkind
    rw [← h.arrivals, hempty] at hmem
    cases hmem

/-- An addition appends the place unless its key has arrived before. -/
theorem Invariant.deliverAdded (h : Invariant directories feed)
    (hserved : feed.queues[index]? = some (event :: rest)) (hkind : event.kind = .childAdded)
    (happ : feed.app.handle event = some app) :
    Invariant directories { feed with
      app
      queues := feed.queues.set index rest
      arrivals :=
        if event.key ∉ feed.arrivals then feed.arrivals ++ [event.key] else feed.arrivals } := by
  have hstore := h.store.handle happ
  have hlist := h.list.handle happ
  have hread {newPlace : Place} {ref : Ref} (href : ref ∈ feed.app.places) :
      (feed.app.heap.alloc newPlace).read ref = feed.app.heap.read ref :=
    Heap.read_alloc_of_lt _ _ (h.store.live ref href)
  have hunchanged : ¬ event.kind = .childChanged := by
    rw [hkind]
    exact EventKind.noConfusion
  simp only [App.handle, App.observe, hkind] at happ
  obtain ⟨decoded, newPlace, requests, hdecoded, hsame, rfl⟩ := App.exists_of_childAdded happ
  have hdecodes := Place.decodes_iff.mp hdecoded
  have hkey : newPlace.key = event.key := by
    rw [Place.key_eq_of_withoutImages hsame]
    exact hdecodes.key
  have hkeys := h.store.map_key_alloc newPlace
  have hcontains : App.containsKey (feed.app.heap.alloc newPlace) feed.app.places newPlace.key =
      false ↔ event.key ∉ feed.arrivals := by
    rw [App.containsKey_eq_false_iff, ← h.arrivals, ← hkeys, hkey, List.mem_map, not_exists]
    exact forall_congr' fun ref ↦ not_and.symm
  by_cases hnew : event.key ∈ feed.arrivals
  · have hold : ¬ App.containsKey (feed.app.heap.alloc newPlace) feed.app.places newPlace.key =
        false := fun hnone ↦ hcontains.mp hnone hnew
    rw [if_neg (not_not_intro hnew)]
    refine h.delivered hserved hstore hlist rfl ?_ (fun _ hmem ↦ hmem) hnew fun ref href ↦ ?_
    · simp only [App.places_refresh, App.heap_refresh, if_neg hold]
      exact hkeys.trans h.arrivals
    · simp only [App.places_refresh, App.heap_refresh, if_neg hold] at href ⊢
      exact Or.inr ⟨href, hread href, fun hchanged ↦ absurd hchanged hunchanged⟩
  · have hfresh := hcontains.mpr hnew
    rw [if_pos hnew]
    refine h.delivered hserved hstore hlist rfl ?_ (fun _ hmem ↦ List.mem_append_left _ hmem)
      (List.mem_append_right _ List.mem_cons_self) fun ref href ↦ ?_
    · simp only [App.places_refresh, App.heap_refresh, if_pos hfresh]
      rw [List.map_append, hkeys, h.arrivals, List.map_singleton, Heap.read_alloc_next, hkey]
    · simp only [App.places_refresh, App.heap_refresh, if_pos hfresh] at href ⊢
      rcases List.mem_append.mp href with hmem | hmem
      · exact Or.inr ⟨hmem, hread hmem, fun hchanged ↦ absurd hchanged hunchanged⟩
      · rw [List.mem_singleton.mp hmem, Heap.read_alloc_next, hsame, Place.withoutImages,
          ← hdecodes.placeImages]
        exact Or.inl ⟨hkey, hdecoded⟩

/-- A change replaces the entry with its key, which has arrived before. -/
theorem Invariant.deliverChanged (h : Invariant directories feed)
    (hserved : feed.queues[index]? = some (event :: rest)) (hkind : event.kind = .childChanged)
    (happ : feed.app.handle event = some app) :
    Invariant directories { feed with app, queues := feed.queues.set index rest } := by
  have hstore := h.store.handle happ
  have hlist := h.list.handle happ
  have hmem := h.mem_arrivals hserved hkind
  simp only [App.handle, App.observe, hkind] at happ
  obtain ⟨newPlace, requests, hdecoded, _, rfl⟩ := App.exists_of_childChanged happ
  have hdecodes := Place.decodes_iff.mp hdecoded
  have hplace : newPlace.withoutImages = newPlace := by
    rw [Place.withoutImages, ← hdecodes.placeImages]
  have hkeys := h.store.map_key_alloc newPlace
  have hnodup : (feed.app.places.map fun ref ↦
      ((feed.app.heap.alloc newPlace).read ref).key).Nodup := by
    rw [hkeys]
    exact h.store.keys
  refine h.delivered hserved hstore hlist rfl ?_ (fun _ hmem ↦ hmem) hmem fun ref href ↦ ?_
  · rw [App.places_refresh, App.heap_refresh]
    exact (App.map_key_replaceEntry ..).trans (hkeys.trans h.arrivals)
  · simp only [App.places_refresh, App.heap_refresh] at href ⊢
    rcases App.mem_replaceEntry hnodup href with rfl | ⟨hold, hne⟩
    · rw [Heap.read_alloc_next, hplace]
      exact Or.inl ⟨hdecodes.key, hdecoded⟩
    · have hread : (feed.app.heap.alloc newPlace).read ref = feed.app.heap.read ref :=
        Heap.read_alloc_of_lt _ _ (h.store.live ref hold)
      rw [hread, Heap.read_alloc_next, hdecodes.key] at hne
      exact Or.inr ⟨hold, hread, fun _ ↦ hne⟩

theorem Invariant.deliver (h : Invariant directories feed)
    (hserved : feed.queues[index]? = some (event :: rest))
    (happ : feed.app.handle event = some app) :
    Invariant directories { feed with
      app
      queues := feed.queues.set index rest
      arrivals :=
        if event.kind = .childAdded ∧ event.key ∉ feed.arrivals then feed.arrivals ++ [event.key]
        else feed.arrivals } := by
  cases hkind : event.kind with
  | childAdded =>
    simp only [true_and]
    exact h.deliverAdded hserved hkind happ
  | childChanged =>
    rw [if_neg fun hboth ↦ EventKind.noConfusion hboth.1]
    exact h.deliverChanged hserved hkind happ

end Deliver

/-- Every step keeps the invariant. -/
theorem Invariant.step (h : Invariant directories feed) {action : Action}
    (hcomplete : action.Complete directories) (hstep : feed.step action = some next) :
    Invariant directories next := by
  cases action with
  | add key child =>
    simp only [Feed.step] at hstep
    split_ifs at hstep with hkey
    exact Option.some.inj hstep ▸ h.add hkey hcomplete
  | change key child =>
    simp only [Feed.step] at hstep
    split_ifs at hstep with hkey
    exact Option.some.inj hstep ▸ h.change hkey hcomplete
  | openList replay => exact h.load (fun hvisited ↦ by cases hvisited) hstep
  | openMyPlaces replay =>
    obtain ⟨visited, hvisited, hnext⟩ := Option.bind_eq_some_iff.mp hstep
    split_ifs at hnext with hpos
    · exact h.load (fun _ ↦ App.isSome_currentUser_of_visitedPlaces hvisited
        (List.length_pos_iff.mp hpos)) hnext
    · exact Option.some.inj hnext ▸ h
  | closeList page =>
    obtain rfl := Option.some.inj hstep
    refine ⟨h.files, h.nodes, h.complete, ⟨h.store.live, h.store.keys⟩,
      fun other list hlist ↦ ?_, h.known, h.arrivals, fun queue hqueue ↦ ?_, h.observed, h.addition,
      h.current⟩
    · by_cases hother : other = page
      · simp [App.closeList, hother] at hlist
      · simp only [App.closeList, Function.update_of_ne hother] at hlist
        exact h.list other list hlist
    · exact ⟨(h.queue queue hqueue).known, (h.queue queue hqueue).latest,
        (h.queue queue hqueue).changes⟩
  | deliver index =>
    simp only [Feed.step] at hstep
    split at hstep
    · rename_i event rest hserved
      obtain ⟨app, happ, rfl⟩ := Option.map_eq_some_iff.mp hstep
      exact h.deliver hserved happ
    · cases hstep

/-! ### The order of the entries -/

/-- Every replay lists the nodes in the order of their additions. -/
def InOrder (feed : Feed) : Action → Prop
  | .openList replay | .openMyPlaces replay => replay = feed.nodes
  | _ => True

/-- The keys that a queue still adds. -/
def additions (queue : List Event) : List String :=
  (queue.filter fun event ↦ event.kind = .childAdded).map Event.key

theorem additions_append (first second : List Event) :
    additions (first ++ second) = additions first ++ additions second := by
  rw [additions, List.filter_append, List.map_append]
  rfl

theorem additions_cons_of_added {event : Event} (hkind : event.kind = .childAdded)
    (rest : List Event) : additions (event :: rest) = event.key :: additions rest := by
  simp [additions, hkind]

theorem additions_cons_of_changed {event : Event} (hkind : ¬ event.kind = .childAdded)
    (rest : List Event) : additions (event :: rest) = additions rest := by
  simp [additions, hkind]

/-- The nodes have arrived in the order of their additions, and each queue adds the nodes from one
on that is not beyond the first that has not arrived. -/
structure Ordered (feed : Feed) : Prop where
  arrivals : feed.arrivals <+: feed.nodes
  queue : ∀ queue ∈ feed.queues, ∃ position ≤ feed.arrivals.length,
    additions queue = feed.nodes.drop position

theorem Ordered.add (h : Ordered feed) :
    Ordered (raise { feed with
      nodes := feed.nodes ++ [key]
      snapshot := Function.update feed.snapshot key child } ⟨.childAdded, key, child⟩) := by
  refine ⟨h.arrivals.trans (List.prefix_append ..), fun queue hqueue ↦ ?_⟩
  obtain ⟨old, hold, rfl⟩ := List.mem_map.mp hqueue
  obtain ⟨position, hposition, hadditions⟩ := h.queue old hold
  have hlength : position ≤ feed.nodes.length := hposition.trans h.arrivals.length_le
  refine ⟨position, hposition, ?_⟩
  rw [additions_append, hadditions]
  exact (List.drop_append_of_le_length hlength).symm

theorem Ordered.change (h : Ordered feed) :
    Ordered (raise { feed with snapshot := Function.update feed.snapshot key child }
      ⟨.childChanged, key, child⟩) := by
  refine ⟨h.arrivals, fun queue hqueue ↦ ?_⟩
  obtain ⟨old, hold, rfl⟩ := List.mem_map.mp hqueue
  obtain ⟨position, hposition, hadditions⟩ := h.queue old hold
  refine ⟨position, hposition, ?_⟩
  rw [additions_append, hadditions]
  exact List.append_nil _

theorem Ordered.load (h : Ordered feed) {showOnlyVisited : Bool}
    (hnext : feed.load showOnlyVisited feed.nodes = some next) : Ordered next := by
  unfold Feed.load at hnext
  split_ifs at hnext
  obtain ⟨app, _, rfl⟩ := Option.map_eq_some_iff.mp hnext
  refine ⟨h.arrivals, fun queue hqueue ↦ ?_⟩
  rcases List.mem_append.mp hqueue with hold | hnew
  · exact h.queue queue hold
  · refine ⟨0, Nat.zero_le _, ?_⟩
    have hfilter : (feed.nodes.map fun key ↦
        (⟨.childAdded, key, feed.snapshot key⟩ : Event)).filter
          (fun event ↦ event.kind = .childAdded) = feed.nodes.map fun key ↦
        (⟨.childAdded, key, feed.snapshot key⟩ : Event) := by
      refine List.filter_eq_self.mpr fun event hevent ↦ ?_
      obtain ⟨_, _, rfl⟩ := List.mem_map.mp hevent
      rfl
    rw [List.mem_singleton.mp hnew, additions, hfilter, List.map_map]
    exact List.map_id _

/-- A delivered addition of a node that has not arrived is that of the next node. -/
theorem Ordered.deliver (h : Ordered feed) (hnodes : feed.nodes.Nodup) {index : ℕ} {event : Event}
    {rest : List Event} (hserved : feed.queues[index]? = some (event :: rest)) (app : App) :
    Ordered { feed with
      app
      queues := feed.queues.set index rest
      arrivals :=
        if event.kind = .childAdded ∧ event.key ∉ feed.arrivals then feed.arrivals ++ [event.key]
        else feed.arrivals } := by
  obtain ⟨position, hposition, hadditions⟩ := h.queue _ (List.mem_of_getElem? hserved)
  have hkeep {arrivals : List String} (harrivals : arrivals <+: feed.nodes)
      (hlength : feed.arrivals.length ≤ arrivals.length)
      (hrest : ∃ position ≤ arrivals.length, additions rest = feed.nodes.drop position) :
      Ordered { feed with app, queues := feed.queues.set index rest, arrivals } := by
    refine ⟨harrivals, fun queue hqueue ↦ ?_⟩
    rcases List.mem_or_eq_of_mem_set hqueue with hold | rfl
    · obtain ⟨other, hother, hadds⟩ := h.queue queue hold
      exact ⟨other, hother.trans hlength, hadds⟩
    · exact hrest
  by_cases hkind : event.kind = .childAdded
  · have hcons : event.key :: additions rest = feed.nodes.drop position := by
      rw [← hadditions, additions_cons_of_added hkind]
    have hget : feed.nodes[position]? = some event.key := by
      rw [← List.head?_drop, ← hcons]
      rfl
    have hrest : additions rest = feed.nodes.drop (position + 1) := by
      rw [← List.tail_drop, ← hcons]
      rfl
    have htake := List.prefix_iff_eq_take.mp h.arrivals
    by_cases hnew : event.key ∈ feed.arrivals
    · rw [if_neg fun hboth ↦ hboth.2 hnew]
      refine hkeep h.arrivals le_rfl ⟨position + 1, ?_, hrest⟩
      obtain ⟨earlier, hearlier⟩ := List.mem_iff_getElem?.mp hnew
      have hlt : earlier < feed.arrivals.length := (List.getElem?_eq_some_iff.mp hearlier).1
      have hsame : feed.nodes[earlier]? = some event.key := by
        rwa [htake, List.getElem?_take_of_lt hlt] at hearlier
      have hposition : earlier = position :=
        (List.getElem?_inj (List.getElem?_eq_some_iff.mp hsame).1 hnodes).mp
          (hsame.trans hget.symm)
      exact hposition ▸ hlt
    · rw [if_pos ⟨hkind, hnew⟩]
      have hlast : position = feed.arrivals.length := by
        refine hposition.antisymm (Nat.le_of_not_lt fun hlt ↦ hnew ?_)
        rw [htake]
        exact List.mem_of_getElem? ((List.getElem?_take_of_lt hlt).trans hget)
      refine hkeep ?_ (by simp) ⟨position + 1, by simp [hlast], hrest⟩
      rw [List.prefix_iff_eq_take, List.length_append, List.length_singleton, List.take_add_one,
        ← htake, ← hlast, hget]
      rfl
  · rw [if_neg fun hboth ↦ hkind hboth.1]
    refine hkeep h.arrivals le_rfl ⟨position, hposition, ?_⟩
    rw [← hadditions, additions_cons_of_changed hkind]

theorem Ordered.step (h : Ordered feed) (hnodes : feed.nodes.Nodup) {action : Action}
    (horder : feed.InOrder action) (hstep : feed.step action = some next) : Ordered next := by
  cases action with
  | add key child =>
    simp only [Feed.step] at hstep
    split_ifs at hstep
    exact Option.some.inj hstep ▸ h.add
  | change key child =>
    simp only [Feed.step] at hstep
    split_ifs at hstep
    exact Option.some.inj hstep ▸ h.change
  | openList replay =>
    obtain rfl : replay = feed.nodes := horder
    exact h.load hstep
  | openMyPlaces replay =>
    obtain rfl : replay = feed.nodes := horder
    obtain ⟨visited, _, hnext⟩ := Option.bind_eq_some_iff.mp hstep
    split_ifs at hnext
    · exact h.load hnext
    · exact Option.some.inj hnext ▸ h
  | closeList page => exact Option.some.inj hstep ▸ ⟨h.arrivals, h.queue⟩
  | deliver index =>
    simp only [Feed.step] at hstep
    split at hstep
    · rename_i event rest hserved
      obtain ⟨app, _, rfl⟩ := Option.map_eq_some_iff.mp hstep
      exact h.deliver hnodes hserved app
    · cases hstep

/-! ### Runs -/

/-- Every event raised so far has been delivered to every pair of observers, and to one at least. -/
def Delivered (feed : Feed) : Prop :=
  (∀ queue ∈ feed.queues, queue = []) ∧ (feed.queues = [] → feed.nodes = [])

theorem invariant_launched (currentUser : Option String) (documents : Dictionary String Data)
    (directories : String → Bool) :
    Invariant directories (launched currentUser documents directories) where
  files := rfl
  nodes := List.nodup_nil
  complete := fun _ hkey ↦ by cases hkey
  store := ⟨fun _ href ↦ (List.not_mem_nil href).elim, List.nodup_nil⟩
  list := fun _ _ hlist ↦ by cases hlist
  known := fun _ href ↦ by cases href
  arrivals := rfl
  queue := fun _ hqueue ↦ by cases hqueue
  observed := fun _ ↦ rfl
  addition := fun _ hkey ↦ by cases hkey
  current := fun _ href ↦ by cases href

theorem ordered_launched (currentUser : Option String) (documents : Dictionary String Data)
    (directories : String → Bool) : Ordered (launched currentUser documents directories) :=
  ⟨List.nil_prefix, fun _ hqueue ↦ by cases hqueue⟩

/-- Once everything is delivered, every node has arrived. -/
theorem Invariant.perm_nodes (h : Invariant directories feed) (hdelivered : feed.Delivered) :
    feed.arrivals.Perm feed.nodes := by
  have harrivals : feed.arrivals.Nodup := h.arrivals ▸ h.store.keys
  refine (List.perm_ext_iff_of_nodup harrivals h.nodes).mpr fun key ↦ ⟨fun hkey ↦ ?_, fun hkey ↦ ?_⟩
  · rw [← h.arrivals] at hkey
    obtain ⟨ref, href, rfl⟩ := List.mem_map.mp hkey
    exact h.known ref href
  · by_contra habsent
    obtain ⟨queue, hqueue⟩ := List.exists_mem_of_ne_nil feed.queues fun hempty ↦ by
      rw [hdelivered.2 hempty] at hkey
      cases hkey
    have hfirst := h.addition key hkey habsent queue hqueue
    rw [hdelivered.1 queue hqueue] at hfirst
    cases hfirst

/-- Once everything is delivered, every entry decodes the snapshot of its node. -/
theorem Invariant.decodes (h : Invariant directories feed) (hdelivered : feed.Delivered) {ref : Ref}
    (href : ref ∈ feed.app.places) :
    Place.placeFromDictionary (feed.snapshot (feed.app.heap.read ref).key)
      (feed.app.heap.read ref).key = some (feed.app.heap.read ref).withoutImages := by
  refine (h.current ref href).resolve_right fun ⟨queue, hqueue, event, hevent, _⟩ ↦ ?_
  rw [hdelivered.1 queue hqueue] at hevent
  cases hevent

/-- Once everything is delivered, the nodes have arrived in the order of their additions. -/
theorem Ordered.eq_nodes (h : Ordered feed) (hperm : feed.arrivals.Perm feed.nodes) :
    feed.arrivals = feed.nodes :=
  h.arrivals.eq_of_length hperm.length_eq

variable {currentUser : Option String} {documents : Dictionary String Data}
variable {actions : List Action} {final : Feed}

/-- Assumes: the snapshots are complete and the replays are in order. -/
theorem ordered_of_run (hcomplete : ∀ action ∈ actions, action.Complete directories)
    (horder : PartialRun.Guarded step InOrder (launched currentUser documents directories) actions)
    (hrun : PartialRun.run step (launched currentUser documents directories) actions = some final) :
    Ordered final := by
  have hguarded : PartialRun.Guarded step
      (fun feed action ↦ feed.InOrder action ∧ action.Complete directories)
      (launched currentUser documents directories) actions :=
    PartialRun.guarded_and horder
      (PartialRun.guarded_of_forall_mem (fun action haction _ ↦ hcomplete action haction) _)
  have hkeep (state : Feed) (action : Action) (next : Feed)
      (hstate : Invariant directories state ∧ Ordered state)
      (hguard : state.InOrder action ∧ action.Complete directories)
      (hstep : state.step action = some next) :
      Invariant directories next ∧ Ordered next :=
    ⟨hstate.1.step hguard.2 hstep, hstate.2.step hstate.1.nodes hguard.1 hstep⟩
  exact (PartialRun.run_invariant hkeep
    ⟨invariant_launched currentUser documents directories,
      ordered_launched currentUser documents directories⟩ hguarded hrun).2

/-- The store mirrors the database for additions and changes. Assumes: the snapshots are complete.
In every state of a run no observer traps on the next event of its queue. When everything has been
delivered, the store has one entry for each node, in the order in which the nodes arrived, which is
that of the additions if the replays are in that order, and each entry decodes the current snapshot
of its node. -/
theorem mirrors_of_run (hcomplete : ∀ action ∈ actions, action.Complete directories)
    (hrun : PartialRun.run step (launched currentUser documents directories) actions = some final) :
    (∀ (index : ℕ) event rest, final.queues[index]? = some (event :: rest) →
      ∃ next, final.app.handle event = some next) ∧
    (final.Delivered →
      final.nodes.Nodup ∧
      final.app.places.map (fun ref ↦ (final.app.heap.read ref).key) = final.arrivals ∧
      final.arrivals.Perm final.nodes ∧
      (PartialRun.Guarded step InOrder (launched currentUser documents directories) actions →
        final.arrivals = final.nodes) ∧
      ∀ ref ∈ final.app.places,
        Place.placeFromDictionary (final.snapshot (final.app.heap.read ref).key)
          (final.app.heap.read ref).key = some (final.app.heap.read ref).withoutImages) := by
  have hfinal : Invariant directories final :=
    PartialRun.run_invariant_on
      (fun action haction _ _ hstate hstep ↦ hstate.step (hcomplete action haction) hstep)
      (invariant_launched currentUser documents directories) hrun
  exact ⟨fun index event rest ↦ hfinal.exists_handle, fun hdelivered ↦
    have hperm := hfinal.perm_nodes hdelivered
    ⟨hfinal.nodes, hfinal.arrivals, hperm,
      fun horder ↦ (ordered_of_run hcomplete horder hrun).eq_nodes hperm,
      fun _ href ↦ hfinal.decodes hdelivered href⟩⟩

/-- Every queue is empty and there is one. -/
theorem delivered_of_length {feed : Feed} {lengths : List ℕ} (hnonempty : lengths ≠ [])
    (hqueues : feed.queues.map List.length = lengths) (hzero : ∀ length ∈ lengths, length = 0) :
    feed.Delivered := by
  subst hqueues
  exact ⟨fun queue hqueue ↦ List.length_eq_zero_iff.mp (hzero _ (List.mem_map_of_mem hqueue)),
    fun hempty ↦ absurd (List.map_eq_nil_iff.mpr hempty) hnonempty⟩

/-- The record of a second place. -/
def secondRecord : Record :=
  Record.absent.updateChildValues
    (Place.dictionaryFromPlace { samplePlace with placeName := "Rila Monastery", key := "rila" })

/-- Two pages are loaded, the second before the first has delivered everything, and a place that
both still add is changed. -/
def sampleActions : List Action :=
  [.add "boyana" sampleRecord.snapshot, .openList ["boyana"], .add "rila" secondRecord.snapshot,
    .deliver 0, .openList ["boyana", "rila"],
    .change "boyana" (sampleRecord.updateChildValues
      (Place.dictionaryFromPlace (Places.rate (some "ana") samplePlace 4))).snapshot,
    .deliver 1, .deliver 0, .deliver 1, .deliver 1, .deliver 0]

theorem mirrors_of_run_sample :
    ∃ final, PartialRun.run step (launched (some "ana") ∅ App.sampleDirectories) sampleActions =
        some final ∧
      final.app.places.map (fun ref ↦ (final.app.heap.read ref).key) = ["boyana", "rila"] ∧
      ∀ ref ∈ final.app.places,
        Place.placeFromDictionary (final.snapshot (final.app.heap.read ref).key)
          (final.app.heap.read ref).key = some (final.app.heap.read ref).withoutImages := by
  have hruns : (PartialRun.run step (launched (some "ana") ∅ App.sampleDirectories)
      sampleActions).map (fun final ↦
      decide (final.queues.map List.length = [0, 0] ∧ final.arrivals = ["boyana", "rila"])) =
        some true := by
    decide +kernel
  obtain ⟨final, hrun, hfinal⟩ := Option.map_eq_some_iff.mp hruns
  obtain ⟨hqueues, harrivals⟩ := of_decide_eq_true hfinal
  have hdelivered := delivered_of_length (by decide) hqueues (by decide)
  have hcomplete : ∀ action ∈ sampleActions, action.Complete App.sampleDirectories := by
    have hsample : Complete App.sampleDirectories "boyana" sampleRecord.snapshot :=
      ⟨samplePlace, "boyana.jpg", by decide +kernel, rfl, by decide⟩
    have hsecond : Complete App.sampleDirectories "rila" secondRecord.snapshot :=
      ⟨{ samplePlace with placeName := "Rila Monastery", key := "rila" }, "boyana.jpg",
        by decide +kernel, rfl, by decide⟩
    have hrated : Complete App.sampleDirectories "boyana" (sampleRecord.updateChildValues
        (Place.dictionaryFromPlace (Places.rate (some "ana") samplePlace 4))).snapshot :=
      ⟨Places.rate (some "ana") samplePlace 4, "boyana.jpg", by decide +kernel, rfl, by decide⟩
    simp [sampleActions, Action.Complete, hsample, hsecond, hrated]
  obtain ⟨_, hkeys, _, _, hcurrent⟩ := (mirrors_of_run hcomplete hrun).2 hdelivered
  exact ⟨final, hrun, hkeys.trans harrivals, hcurrent⟩

/-- A snapshot with all the required fields and a nonempty array of image names. -/
structure HasFields (child : Children Value) : Prop where
  texts : ∀ name ∈ ["name", "info"], (Place.requiredChild (child name) Value.asString).isSome
  numbers : ∀ name ∈ ["rating", "lat", "lon"],
    (Place.requiredChild (child name) Value.asDouble).isSome
  visits : (Place.requiredChild (child "visits") Value.asInt).isSome
  images : ∃ images, Place.requiredChild (child "images") Value.asStringArray = some images ∧
    images ≠ []

/-- The record of a place whose image name is empty. -/
def namelessRecord : Record :=
  Record.absent.updateChildValues
    (Place.dictionaryFromPlace { samplePlace with imageNames := [""] })

/-- The record of a place that two callers who were not signed in have rated. -/
def anonymousRecord : Record :=
  sampleRecord.updateChildValues (Place.dictionaryFromPlace
    ([(none, .rate 4), (none, .rate 3)].foldl Places.perform samplePlace))

/-- The entries come in the order of the replay, which need not be that of the additions. And an
observer traps on a snapshot with all the required fields and an array of image names if the first
name leads to a directory, or if the ratings come as an array. -/
theorem mirrors_counterexample :
    (∃ final, PartialRun.run step (launched (some "ana") ∅ App.sampleDirectories)
        [.add "rila" secondRecord.snapshot, .add "boyana" sampleRecord.snapshot,
          .openList ["boyana", "rila"], .deliver 0, .deliver 0] = some final ∧
      final.Delivered ∧ final.nodes = ["rila", "boyana"] ∧
      final.app.places.map (fun ref ↦ (final.app.heap.read ref).key) = ["boyana", "rila"]) ∧
    ∀ record ∈ [namelessRecord, anonymousRecord], HasFields record.snapshot ∧
      ∃ final event, PartialRun.run step (launched (some "ana") ∅ App.sampleDirectories)
          [.openList [], .add "boyana" record.snapshot] = some final ∧
        final.queues[0]? = some [event] ∧ event.child = record.snapshot ∧
        final.app.handle event = none := by
  refine ⟨?_, ?_⟩
  · have hruns : (PartialRun.run step (launched (some "ana") ∅ App.sampleDirectories)
        [.add "rila" secondRecord.snapshot, .add "boyana" sampleRecord.snapshot,
          .openList ["boyana", "rila"], .deliver 0, .deliver 0]).map (fun final ↦
        decide (final.queues.map List.length = [0] ∧ final.nodes = ["rila", "boyana"] ∧
          final.app.places.map (fun ref ↦ (final.app.heap.read ref).key) =
            ["boyana", "rila"])) = some true := by
      decide +kernel
    obtain ⟨final, hrun, hfinal⟩ := Option.map_eq_some_iff.mp hruns
    obtain ⟨hqueues, hnodes, hplaces⟩ := of_decide_eq_true hfinal
    exact ⟨final, hrun, delivered_of_length (by decide) hqueues (by decide), hnodes, hplaces⟩
  · have htraps (child : Children Value)
        (hnone : ((App.launched (some "ana") ∅ App.sampleDirectories).openList false).result.bind
          (App.handle · ⟨.childAdded, "boyana", child⟩) = none) :
        ∃ final event, PartialRun.run step (launched (some "ana") ∅ App.sampleDirectories)
            [.openList [], .add "boyana" child] = some final ∧
          final.queues[0]? = some [event] ∧ event.child = child ∧
          final.app.handle event = none :=
      ⟨_, ⟨.childAdded, "boyana", child⟩, rfl, rfl, rfl, hnone⟩
    intro record hrecord
    rcases List.mem_pair.mp hrecord with rfl | rfl
    · refine ⟨⟨by decide +kernel, by decide +kernel, by decide +kernel, [""], by decide +kernel,
        by decide⟩, htraps _ (Option.isNone_iff_eq_none.mp ?_)⟩
      decide +kernel
    · refine ⟨⟨by decide +kernel, by decide +kernel, by decide +kernel, ["boyana.jpg"],
        by decide +kernel, by decide⟩, htraps _ (Option.isNone_iff_eq_none.mp ?_)⟩
      decide +kernel

end Feed

end BeenHere
