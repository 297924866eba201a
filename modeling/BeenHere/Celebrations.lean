import BeenHere.Serial

/-!
# Congratulations

`locationUpdated` congratulates a user on a visit with an alert. Whatever the clients do, every
alert is due to a visit that was recorded in the same round: the places of the alerts are, in their
order, among those that the user of the client has visited, no object is celebrated twice, and every
object that was celebrated lists the user (`alerts_of_run`).

A place may be celebrated twice all the same, since a stale write may take the user off its
visitors. Not so if the users make their calls one at a time: an atlas accepts one visit of each
user to a place (`Atlas.nodup_visitsBy`), and so no user is congratulated twice on the same place,
on whatever device (`nodup_visits_of_run`).
-/

set_option autoImplicit false
set_option relaxedAutoImplicit false

namespace BeenHere

open Firebase ObjectHeap

/-! ### The visits of one user -/

/-- The place that an operation visits under a uid. -/
def Operation.visitedBy (uid : String) : Operation → Option String
  | .call key (some caller) .visit => if caller = uid then some key else none
  | _ => none

/-- The places that a user visits, in the order of the visits. -/
def visitsBy (uid : String) (operations : List Operation) : List String :=
  operations.filterMap (Operation.visitedBy uid)

theorem visitedBy_eq_some_iff {uid key : String} {operation : Operation} :
    operation.visitedBy uid = some key ↔ operation = .call key (some uid) .visit := by
  cases operation with
  | remove other => simp [Operation.visitedBy]
  | call other caller call =>
    cases call with
    | rate rating => simp [Operation.visitedBy]
    | visit =>
      cases caller with
      | none => simp [Operation.visitedBy]
      | some name =>
        simp only [Operation.visitedBy, Operation.call.injEq, Option.some.injEq, and_true]
        split_ifs with hname
        · simp [hname]
        · simp [hname]

namespace Atlas

variable {atlas : Atlas} {uid key : String}

/-- The place, if the atlas has it, lists the user. -/
def Lists (atlas : Atlas) (uid key : String) : Prop :=
  ∀ place, atlas key = some place → uid ∈ place.visitors

theorem Lists.perform (h : atlas.Lists uid key) (operation : Operation) :
    (atlas.perform operation).Lists uid key := by
  intro place hplace
  cases operation with
  | remove other =>
    by_cases hkey : key = other
    · simp [Atlas.perform, hkey] at hplace
    · exact h place (by simpa [Atlas.perform, hkey] using hplace)
  | call other caller call =>
    by_cases hkey : key = other
    · simp only [Atlas.perform, hkey, Function.update_self, Option.map_eq_some_iff] at hplace
      obtain ⟨before, hbefore, rfl⟩ := hplace
      exact (Places.visitors_foldl_perform before [(caller, call)]).subset
        (h before (hkey ▸ hbefore))
    · exact h place (by simpa [Atlas.perform, hkey] using hplace)

/-- A visit is recorded. -/
theorem lists_perform_visit (atlas : Atlas) (uid key : String) :
    (atlas.perform (.call key (some uid) .visit)).Lists uid key := by
  intro place hplace
  simp only [Atlas.perform, Function.update_self, Option.map_eq_some_iff] at hplace
  obtain ⟨before, _, rfl⟩ := hplace
  rw [Places.perform]
  by_cases hmem : Places.visitName (some uid) before ∈ before.visitors
  · rw [Places.visit_of_mem hmem]
    exact hmem
  · rw [Places.visit_of_notMem hmem]
    exact List.mem_append_right _ List.mem_cons_self

/-- An atlas accepts no visit to a place that lists the user. -/
theorem notMem_visitsBy (h : atlas.Lists uid key) {operations : List Operation}
    (hlegal : atlas.Legal operations) : key ∉ visitsBy uid operations := by
  induction operations generalizing atlas with
  | nil => exact List.not_mem_nil
  | cons operation rest ih =>
    intro hmem
    obtain ⟨other, hother, hvisited⟩ := List.mem_filterMap.mp hmem
    rcases List.mem_cons.mp hother with rfl | hrest
    · rw [visitedBy_eq_some_iff.mp hvisited] at hlegal
      obtain ⟨place, hplace, hnotMem⟩ := hlegal.1
      exact hnotMem (h place hplace)
    · exact ih (h.perform operation) hlegal.2 (List.mem_filterMap.mpr ⟨other, hrest, hvisited⟩)

/-- An atlas accepts at most one visit of a user to a place. -/
theorem nodup_visitsBy {operations : List Operation} (h : atlas.Legal operations) :
    (visitsBy uid operations).Nodup := by
  induction operations generalizing atlas with
  | nil => exact List.nodup_nil
  | cons operation rest ih =>
    rw [visitsBy, List.filterMap_cons]
    cases hvisited : operation.visitedBy uid with
    | none => exact ih h.2
    | some key =>
      refine List.nodup_cons.mpr ⟨?_, ih h.2⟩
      rw [visitedBy_eq_some_iff.mp hvisited] at h
      exact notMem_visitsBy (lists_perform_visit atlas uid key) h.2

end Atlas

/-! ### One client -/

/-- What happens to the objects of an app: they stay, under their keys, and lose no visitor. -/
structure App.Grows (before after : App) : Prop where
  user : after.currentUser = before.currentUser
  next : before.heap.next ≤ after.heap.next
  key : ∀ ref < before.heap.next, (after.heap.read ref).key = (before.heap.read ref).key
  visitors : ∀ ref < before.heap.next,
    (before.heap.read ref).visitors ⊆ (after.heap.read ref).visitors

namespace App

variable {app next : App}

theorem Grows.refl (app : App) : app.Grows app :=
  ⟨rfl, le_rfl, fun _ _ ↦ rfl, fun _ _ ↦ List.Subset.refl _⟩

theorem Grows.trans {first second third : App} (hfirst : first.Grows second)
    (hsecond : second.Grows third) : first.Grows third := by
  have hlive {ref : Ref} (href : ref < first.heap.next) : ref < second.heap.next :=
    lt_of_lt_of_le href hfirst.next
  exact ⟨hsecond.user.trans hfirst.user, hfirst.next.trans hsecond.next,
    fun ref href ↦ (hsecond.key ref (hlive href)).trans (hfirst.key ref href),
    fun ref href ↦ List.Subset.trans (hfirst.visitors ref href) (hsecond.visitors ref (hlive href))⟩

theorem grows_writeBack {ref : Ref} (caller : Option String) (call : Call) :
    app.Grows (app.writeBack ref (Places.perform (app.heap.read ref) (caller, call))) := by
  have hread (other : Ref) : (app.writeBack ref
      (Places.perform (app.heap.read ref) (caller, call))).heap.read other =
        if other = ref then Places.perform (app.heap.read ref) (caller, call)
        else app.heap.read other := by
    split_ifs with hother
    · rw [hother, writeBack, Heap.read_write_self]
    · rw [writeBack, Heap.read_write_of_ne _ _ hother]
  refine ⟨rfl, le_rfl, fun other _ ↦ ?_, fun other _ ↦ ?_⟩
  · rw [hread]
    split_ifs with hother
    · rw [hother, Places.key_perform]
    · rfl
  · rw [hread]
    split_ifs with hother
    · rw [hother]
      exact (Places.visitors_foldl_perform (app.heap.read ref) [(caller, call)]).subset
    · exact List.Subset.refl _

theorem grows_visit (app : App) (ref : Ref) : app.Grows (app.visit ref).2 :=
  visit_rule app.Grows (Grows.refl app) fun _ ↦ grows_writeBack app.currentUser .visit

theorem grows_handle {event : Event} (hhandled : app.handle event = some next) :
    app.Grows next := by
  obtain ⟨_, newPlace, _, _, _, _, _, rfl⟩ := exists_of_handle hhandled
  have hread (ref : Ref) (href : ref < app.heap.next) :
      (app.heap.alloc newPlace).read ref = app.heap.read ref :=
    Heap.read_alloc_of_lt _ _ href
  refine ⟨rfl, Nat.le_succ _, fun ref href ↦ ?_, fun ref href ↦ ?_⟩
  · exact congrArg Place.key (hread ref href)
  · exact fun _ hname ↦ (congrArg Place.visitors (hread ref href)).symm ▸ hname

end App

/-- The alerts of a client: no object is celebrated twice, all of them list the user, and their
places are among those visited, in the same order. -/
structure Client.Celebrated (uid : String) (visited : List String) (client : Client) : Prop where
  user : client.app.currentUser = some uid
  nodup : client.view.alerts.Nodup
  live : ∀ ref ∈ client.view.alerts, ref < client.app.heap.next
  lists : ∀ ref ∈ client.view.alerts, uid ∈ (client.app.heap.read ref).visitors
  due : (client.view.alerts.map fun ref ↦ (client.app.heap.read ref).key).Sublist visited

namespace Client

variable {client changed : Client} {uid : String} {visited : List String}

/-- A step that shows no alert. -/
theorem Celebrated.of_grows (h : client.Celebrated uid visited)
    (hgrows : client.app.Grows changed.app) (halerts : changed.view.alerts = client.view.alerts)
    (more : List String) : changed.Celebrated uid (visited ++ more) where
  user := hgrows.user.trans h.user
  nodup := halerts ▸ h.nodup
  live ref href := lt_of_lt_of_le (h.live ref (halerts ▸ href)) hgrows.next
  lists ref href :=
    hgrows.visitors ref (h.live ref (halerts ▸ href)) (h.lists ref (halerts ▸ href))
  due := by
    rw [halerts, List.map_congr_left fun ref href ↦ hgrows.key ref (h.live ref href)]
    exact h.due.trans (List.sublist_append_left ..)

variable {distanceBetween : Point → Point → ℚ}

/-- A fix that the client takes. Assumes: a well formed store. -/
theorem Celebrated.locationUpdated (h : client.Celebrated uid visited)
    (hstore : client.app.WellFormed) (fix : Fix) :
    Celebrated uid (visited ++
      ((client.app.nearby distanceBetween fix.coordinate client.app.places).filter
        client.app.accepts).map fun ref ↦ (client.app.heap.read ref).key)
      { client with
        app := (locationUpdated distanceBetween client.app client.view fix).1
        view := (locationUpdated distanceBetween client.app client.view fix).2 } := by
  set nearby := client.app.nearby distanceBetween fix.coordinate client.app.places with hnearby
  set celebrated := nearby.filter (client.app.celebrates distanceBetween fix.coordinate)
    with hcelebrated
  have hgrows : client.app.Grows (BeenHere.locationUpdated distanceBetween client.app client.view
      fix).1 :=
    locationUpdated_app distanceBetween client.app.Grows
      (fun _ hother place _ _ ↦ hother.trans (App.grows_visit _ place))
      (App.Grows.refl client.app) client.view
  have haccepted {ref : Ref} (href : ref ∈ celebrated) :
      ref ∈ nearby ∧ uid ∉ (client.app.heap.read ref).visitors := by
    obtain ⟨hmem, hcelebrates⟩ := List.mem_filter.mp href
    rw [App.celebrates, Bool.and_eq_true] at hcelebrates
    have hnotMem := App.accepts_iff.mp hcelebrates.1
    rw [h.user] at hnotMem
    exact ⟨hmem, hnotMem⟩
  have hlive {ref : Ref} (href : ref ∈ celebrated) : ref < client.app.heap.next :=
    hstore.live ref (List.mem_filter.mp (haccepted href).1).1
  have hvisited {ref : Ref} (href : ref ∈ celebrated) : uid ∈ ((client.app.visitAll
      nearby).heap.read ref).visitors := by
    have hread : (client.app.visitAll nearby).heap.read ref = client.app.visited ref :=
      if_pos (haccepted href).1
    have hnotMem := (haccepted href).2
    rw [hread, App.visited, h.user, Places.visit_of_notMem hnotMem]
    exact List.mem_append_right _ List.mem_cons_self
  have hdue : (celebrated.map fun ref ↦ (client.app.heap.read ref).key).Sublist
      ((nearby.filter client.app.accepts).map fun ref ↦ (client.app.heap.read ref).key) := by
    have hfilter : celebrated = (nearby.filter client.app.accepts).filter fun ref ↦
        decide (client.app.distanceTo distanceBetween ref fix.coordinate < 100) := by
      rw [List.filter_filter, hcelebrated]
      exact List.filter_congr fun ref _ ↦ Bool.and_comm ..
    rw [hfilter]
    exact List.filter_sublist.map _
  have halerts : (BeenHere.locationUpdated distanceBetween client.app client.view fix).2.alerts =
      client.view.alerts ++ celebrated := hstore.alerts_locationUpdated client.view fix
  have hliveAlert {ref : Ref} (href : ref ∈ client.view.alerts ++ celebrated) :
      ref < client.app.heap.next := by
    rcases List.mem_append.mp href with hold | hnew
    · exact h.live ref hold
    · exact hlive hnew
  refine ⟨hgrows.user.trans h.user, ?_, fun ref href ↦ ?_, fun ref href ↦ ?_, ?_⟩
  · -- an object that has been celebrated lists the user
    rw [halerts]
    exact h.nodup.append ((hstore.nodup.filter _).filter _) fun ref hold hnew ↦
      (haccepted hnew).2 (h.lists ref hold)
  · exact lt_of_lt_of_le (hliveAlert (halerts ▸ href)) hgrows.next
  · rcases List.mem_append.mp (halerts ▸ href) with hold | hnew
    · exact hgrows.visitors ref (h.live ref hold) (h.lists ref hold)
    · rw [hstore.locationUpdated_fst]
      exact hvisited hnew
  · have hkeys := List.map_congr_left fun ref href ↦ hgrows.key ref (hliveAlert href)
    rw [halerts, hkeys, List.map_append]
    exact h.due.append hdue

end Client

namespace Network

variable {ι : Type} [DecidableEq ι] {network next : Network ι} {client : ι} {uid : String}
variable {visited : List String} (distanceBetween : Point → Point → ℚ)

/-- The objects and the alerts of a client in a step in which it takes no fix. -/
theorem grows_of_step {action : Action ι} (hfix : ∀ fix, action ≠ .locate client fix)
    (hstep : network.step distanceBetween action = some next) :
    (network.client client).app.Grows (next.client client).app ∧
      (next.client client).view.alerts = (network.client client).view.alerts := by
  -- a step of a client that keeps its alerts
  have hset {other : ι} {changed : Client}
      (hgrows : (network.client other).app.Grows changed.app)
      (halerts : changed.view.alerts = (network.client other).view.alerts) :
      (network.client client).app.Grows ((network.setClient other changed).client client).app ∧
        ((network.setClient other changed).client client).view.alerts =
          (network.client client).view.alerts := by
    by_cases hother : client = other
    · rw [hother, client_setClient_self]
      exact ⟨hgrows, halerts⟩
    · rw [client_setClient_of_ne hother]
      exact ⟨App.Grows.refl _, rfl⟩
  cases action with
  | visit other place =>
    obtain rfl := Option.some.inj hstep
    exact hset (App.grows_visit _ place) rfl
  | rate other place rating =>
    obtain rfl := Option.some.inj hstep
    exact hset (App.grows_writeBack _ (.rate rating)) rfl
  | locate other fix =>
    obtain rfl := Option.some.inj hstep
    have hother : client ≠ other := fun hsame ↦ hfix fix (hsame ▸ rfl)
    rw [client_setClient_of_ne hother]
    exact ⟨App.Grows.refl _, rfl⟩
  | apply other index =>
    obtain ⟨write, _, rfl⟩ := Option.map_eq_some_iff.mp hstep
    exact hset ⟨rfl, le_rfl, fun _ _ ↦ rfl, fun _ _ ↦ List.Subset.refl _⟩ rfl
  | deliver other index =>
    obtain ⟨event, _, hhandled⟩ := Option.bind_eq_some_iff.mp hstep
    obtain ⟨app, happ, rfl⟩ := Option.map_eq_some_iff.mp hhandled
    exact hset (App.grows_handle happ) rfl
  | observe other kind key =>
    obtain ⟨record, _, rfl⟩ := Option.map_eq_some_iff.mp hstep
    exact hset (App.Grows.refl _) rfl
  | remove key =>
    obtain rfl := Option.some.inj hstep
    exact ⟨App.Grows.refl _, rfl⟩

/-- Every step keeps the invariant. Assumes: well formed stores. -/
theorem celebrated_of_step (hstores : ∀ client, (network.client client).app.WellFormed)
    (h : (network.client client).Celebrated uid visited) {action : Action ι}
    (hstep : network.step distanceBetween action = some next) :
    (next.client client).Celebrated uid
      (visited ++ visitsBy uid (network.operations distanceBetween action)) := by
  by_cases hfix : ∃ fix, action = .locate client fix
  · obtain ⟨fix, rfl⟩ := hfix
    obtain rfl := Option.some.inj hstep
    set app := (network.client client).app with happ
    have hvisits : visitsBy uid (network.operations distanceBetween (.locate client fix)) =
        ((app.nearby distanceBetween fix.coordinate app.places).filter app.accepts).map
          fun ref ↦ (app.heap.read ref).key := by
      have hoperations : network.operations distanceBetween (.locate client fix) =
          visits app (app.nearby distanceBetween fix.coordinate app.places) := List.map_map
      have huser : app.currentUser = some uid := h.user
      rw [hoperations, visitsBy, visits, huser, List.filterMap_map]
      exact List.filterMap_eq_map_iff_forall_eq_some.mpr fun ref _ ↦ if_pos rfl
    rw [hvisits, client_setClient_self]
    exact h.locationUpdated (hstores client) fix
  · obtain ⟨hgrows, halerts⟩ :=
      grows_of_step distanceBetween (fun fix heq ↦ hfix ⟨fix, heq⟩) hstep
    exact h.of_grows hgrows halerts _

section Runs

variable {start final : Network ι} {actions : List (Action ι)}

theorem celebrated_of_run (hstores : ∀ client, (start.client client).app.WellFormed)
    (huser : (start.client client).app.currentUser = some uid)
    (halerts : (start.client client).view.alerts = [])
    (hrun : PartialRun.run (step distanceBetween) start actions = some final) :
    (final.client client).Celebrated uid
      (visitsBy uid (operationsOf distanceBetween start actions)) := by
  have hkeep (done : List Operation) (network : Network ι) (action : Action ι) (next : Network ι)
      (h : (∀ client, (network.client client).app.WellFormed) ∧
        (network.client client).Celebrated uid (visitsBy uid done))
      (_ : True) (hstep : network.step distanceBetween action = some next) :
      (∀ client, (next.client client).app.WellFormed) ∧ (next.client client).Celebrated uid
        (visitsBy uid (done ++ network.operations distanceBetween action)) := by
    rw [visitsBy, List.filterMap_append]
    exact ⟨wellFormed_of_step distanceBetween h.1 hstep,
      celebrated_of_step distanceBetween h.1 h.2 hstep⟩
  have hstart : (∀ client, (start.client client).app.WellFormed) ∧
      (start.client client).Celebrated uid (visitsBy uid []) := by
    refine ⟨hstores, huser, ?_, ?_, ?_, ?_⟩ <;> simp [halerts]
  exact (PartialRun.run_invariant_trace hkeep hstart
    (PartialRun.guarded_of_forall_mem (fun _ _ _ ↦ trivial) start) hrun).2

/-- Assumes: well formed stores, and a signed-in user whose client has shown no alert. After any run
no object has been celebrated twice on the client, every object that has been celebrated lists the
user, and the places celebrated are, in the same order, among those that the calls of the run have
visited under the uid. -/
theorem alerts_of_run (hstores : ∀ client, (start.client client).app.WellFormed)
    (huser : (start.client client).app.currentUser = some uid)
    (halerts : (start.client client).view.alerts = [])
    (hrun : PartialRun.run (step distanceBetween) start actions = some final) :
    let app := (final.client client).app
    let alerts := (final.client client).view.alerts
    alerts.Nodup ∧ (∀ ref ∈ alerts, uid ∈ (app.heap.read ref).visitors) ∧
      (alerts.map fun ref ↦ (app.heap.read ref).key).Sublist
        (visitsBy uid (operationsOf distanceBetween start actions)) := by
  have hfinal := celebrated_of_run distanceBetween hstores huser halerts hrun
  exact ⟨hfinal.nodup, hfinal.lists, hfinal.due⟩

/-- Assumes: calls that are made one at a time, as in `decoded_eq_of_run`. In such a run a
user visits no place twice, on whatever client. A client of the user that has shown no alert before
the run congratulates on no place twice. -/
theorem nodup_visits_of_run {files : Set String}
    (h : TakesTurns distanceBetween files start actions)
    (hrun : PartialRun.run (step distanceBetween) start actions = some final) (uid : String) :
    (visitsBy uid (operationsOf distanceBetween start actions)).Nodup ∧
      ∀ client, (start.client client).app.currentUser = some uid →
        (start.client client).view.alerts = [] →
        ((final.client client).view.alerts.map fun ref ↦
          ((final.client client).app.heap.read ref).key).Nodup := by
  have hfollows := follows_of_run distanceBetween h hrun
  have hnodup : (visitsBy uid (operationsOf distanceBetween start actions)).Nodup :=
    Atlas.nodup_visitsBy hfollows.legal
  refine ⟨hnodup, fun client huser halerts ↦ ?_⟩
  exact (celebrated_of_run distanceBetween h.sound.ready.store huser halerts hrun).due.nodup hnodup

/-- Both users come by, one after the other, and the first one once more. -/
def sampleWalks : List (Action Bool) :=
  [.locate true ⟨⟨42, 23⟩, none⟩, .apply true 0, .deliver true 0, .deliver false 0,
    .locate false ⟨⟨42, 23⟩, none⟩, .apply false 0, .deliver true 0, .deliver false 0,
    .locate true ⟨⟨42, 23⟩, none⟩]

theorem alerts_of_run_sample :
    ∃ final, PartialRun.run (step sampleDistance) sampleNetwork sampleWalks = some final ∧
      (final.client false).view.alerts = [1] ∧
      ∀ ref ∈ (final.client false).view.alerts,
        "boris" ∈ ((final.client false).app.heap.read ref).visitors := by
  have hruns : (PartialRun.run (step sampleDistance) sampleNetwork sampleWalks).map
      (fun final ↦ decide ((final.client false).view.alerts = [1])) = some true := by
    decide +kernel
  obtain ⟨final, hrun, halerts⟩ := Option.map_eq_some_iff.mp hruns
  exact ⟨final, hrun, of_decide_eq_true halerts,
    (alerts_of_run sampleDistance ready_sampleNetwork.store rfl rfl hrun).2.1⟩

theorem nodup_visits_of_run_sample :
    (visitsBy "ana" (operationsOf sampleDistance sampleNetwork sampleWalks)).Nodup ∧
      visitsBy "ana" (operationsOf sampleDistance sampleNetwork sampleWalks) = ["boyana"] := by
  have hruns : (PartialRun.run (step sampleDistance) sampleNetwork sampleWalks).isSome := by
    decide +kernel
  obtain ⟨final, hrun⟩ := Option.isSome_iff_exists.mp hruns
  have hturns : TakesTurns sampleDistance {"boyana.jpg"} sampleNetwork sampleWalks :=
    ⟨sound_sampleNetwork, quiet_sampleNetwork, by decide +kernel, by decide +kernel⟩
  exact ⟨(nodup_visits_of_run sampleDistance hturns hrun "ana").1, by decide +kernel⟩

end Runs

end Network

end BeenHere
