import BeenHere.Library.PartialRun
import BeenHere.Network

/-!
# Deleted places

The store observes `childAdded` and `childChanged` and keeps an entry whose node is removed. A later
visit or rating of such an entry writes the whole record to a node that does not exist, which
creates it. After a removal the node stays absent in the runs in which no client makes a call that
writes the place, and only in those (`absent_iff_leaves`). A client without a copy of the place and
without an event for it can make no such call (`absent_of_unaware`); a client with a copy needs only
to walk by (`absent_counterexample`).
-/

set_option autoImplicit false
set_option relaxedAutoImplicit false

namespace BeenHere

open Firebase ObjectHeap

namespace App

/-- A write to the node is under way. -/
def Wrote (key : String) (app : App) : Prop := ∃ write ∈ app.outbox, write.key = key

variable {app : App} {key : String} {place : Ref}

/-- A call that writes an object leaves a write under its key. -/
theorem wrote_append {heap : Heap Place} (values : Children Value) :
    Wrote key { app with heap := heap, outbox := app.outbox ++ [⟨key, values⟩] } :=
  ⟨_, List.mem_append_right _ List.mem_cons_self, rfl⟩

theorem Wrote.append (h : app.Wrote key) {heap : Heap Place} (write : Write) :
    Wrote key { app with heap := heap, outbox := app.outbox ++ [write] } := by
  obtain ⟨old, hold, hkey⟩ := h
  exact ⟨old, List.mem_append_left _ hold, hkey⟩

/-- A call on an object with another key leaves no write under this key. -/
theorem not_wrote_append (h : ¬ app.Wrote key) {heap : Heap Place} {write : Write}
    (hkey : write.key ≠ key) :
    ¬ Wrote key { app with heap := heap, outbox := app.outbox ++ [write] } := by
  rintro ⟨other, hother, hsame⟩
  rcases List.mem_append.mp hother with hold | hnew
  · exact h ⟨other, hold, hsame⟩
  · rw [List.mem_singleton.mp hnew] at hsame
    exact hkey hsame

theorem Wrote.visit (h : app.Wrote key) (place : Ref) : (app.visit place).2.Wrote key :=
  visit_rule (Wrote key) h fun _ ↦ h.append _

theorem Wrote.rate (h : app.Wrote key) (place : Ref) (rating : ℤ) :
    (app.rate place rating).Wrote key :=
  h.append _

/-- The call `Places.visit` on an object writes no record under the key: the object has another key,
or the user is among its visitors. -/
def VisitLeaves (key : String) (app : App) (place : Ref) : Prop :=
  (app.heap.read place).key = key →
    Places.visitName app.currentUser (app.heap.read place) ∈ (app.heap.read place).visitors

instance : Decidable (app.VisitLeaves key place) :=
  inferInstanceAs (Decidable (_ → _))

theorem wrote_visit_of_not_leaves (h : ¬ app.VisitLeaves key place) :
    (app.visit place).2.Wrote key := by
  obtain ⟨hkey, hmem⟩ := Classical.not_imp.mp h
  rw [visit_of_notMem hmem, hkey]
  exact wrote_append _

theorem not_wrote_visit (h : ¬ app.Wrote key) (hleaves : app.VisitLeaves key place) :
    ¬ (app.visit place).2.Wrote key := by
  refine visit_rule (fun other ↦ ¬ other.Wrote key) h fun hmem ↦ not_wrote_append h fun hkey ↦ ?_
  rw [Places.key_visit] at hkey
  exact hmem (hleaves hkey)

theorem heap_visit_of_ne {other : Ref} (hne : place ≠ other) :
    (app.visit other).2.heap.read place = app.heap.read place :=
  visit_rule (fun visited ↦ visited.heap.read place = app.heap.read place) rfl
    fun _ ↦ Heap.read_write_of_ne _ _ hne

/-- A visit to another object, or one that writes nothing, keeps a visit from writing. -/
theorem VisitLeaves.visit {other : Ref} (h : app.VisitLeaves key place)
    (hother : app.VisitLeaves key other) : (app.visit other).2.VisitLeaves key place := by
  refine visit_rule (fun visited ↦ visited.VisitLeaves key place) h fun hmem hkey ↦ ?_
  by_cases hsame : place = other
  · subst hsame
    rw [writeBack, Heap.read_write_self, Places.key_visit] at hkey
    exact absurd (hother hkey) hmem
  · rw [writeBack, Heap.read_write_of_ne _ _ hsame] at hkey ⊢
    exact h hkey

section Locate

variable (distanceBetween : Point → Point → ℚ)

/-- No visit of `locationUpdated` writes a record under the key. -/
def LocateLeaves (key : String) (app : App) (fix : Fix) : Prop :=
  ∀ place ∈ app.places, app.distanceTo distanceBetween place fix.coordinate < 500 →
    app.VisitLeaves key place

instance {fix : Fix} : Decidable (app.LocateLeaves distanceBetween key fix) :=
  inferInstanceAs (Decidable (∀ place ∈ app.places, _ → _))

theorem Wrote.locationUpdated (h : app.Wrote key) (view : Locator) (fix : Fix) :
    (locationUpdated distanceBetween app view fix).1.Wrote key :=
  locationUpdated_app distanceBetween (Wrote key) (fun _ hother place _ _ ↦ hother.visit place) h
    view

theorem not_wrote_locationUpdated {fix : Fix} (h : ¬ app.Wrote key)
    (hleaves : app.LocateLeaves distanceBetween key fix) (view : Locator) :
    ¬ (locationUpdated distanceBetween app view fix).1.Wrote key := by
  have hloop := locationUpdated_app distanceBetween
    (fun other ↦ SamePlaces distanceBetween app other ∧ ¬ other.Wrote key ∧
      ∀ place ∈ app.places, app.distanceTo distanceBetween place fix.coordinate < 500 →
        other.VisitLeaves key place)
    (fun other ⟨hsame, hwrote, hother⟩ place hplace hring ↦ by
      have hvisit := hother place hplace (by rw [← hsame.2.2]; exact hring)
      exact ⟨hsame.trans distanceBetween (samePlaces_visit distanceBetween other place),
        not_wrote_visit hwrote hvisit,
        fun entry hentry hnear ↦ (hother entry hentry hnear).visit hvisit⟩)
    ⟨⟨rfl, rfl, fun _ _ ↦ rfl⟩, h, hleaves⟩ view
  exact hloop.2.1

/-- A visit in the loop that writes the record leaves the write. -/
theorem wrote_foldl_scanPlace (location : Point) (places : List Ref) (scan : Scan)
    (hplace : place ∈ places)
    (hring : scan.app.distanceTo distanceBetween place location < 500)
    (hvisit : ¬ scan.app.VisitLeaves key place) :
    (places.foldl (scanPlace distanceBetween location) scan).app.Wrote key := by
  induction places generalizing scan with
  | nil => cases hplace
  | cons other rest ih =>
    rw [List.foldl_cons]
    have hround := scanPlace_app distanceBetween location scan other
    by_cases hother : scan.app.distanceTo distanceBetween other location < 500 ∧
        ¬ scan.app.VisitLeaves key other
    · refine foldl_scanPlace_app distanceBetween (Wrote key) location rest
        (fun _ hwrote entry _ _ ↦ hwrote.visit entry) _ ?_
      rw [hround, if_pos hother.1]
      exact wrote_visit_of_not_leaves hother.2
    · -- this round does not write the record, so the place comes later
      have hne : place ≠ other := fun heq ↦ hother (heq ▸ ⟨hring, hvisit⟩)
      refine ih _ ((List.mem_cons.mp hplace).resolve_left hne) ?_ ?_
      · rw [hround]
        split_ifs
        · rw [(samePlaces_visit distanceBetween scan.app other).2.2]
          exact hring
        · exact hring
      · rw [hround]
        split_ifs with hnear
        · rwa [VisitLeaves, (samePlaces_visit distanceBetween scan.app other).1,
            heap_visit_of_ne hne]
        · exact hvisit

theorem wrote_locationUpdated {fix : Fix} (h : ¬ app.LocateLeaves distanceBetween key fix)
    (view : Locator) : (locationUpdated distanceBetween app view fix).1.Wrote key := by
  simp only [LocateLeaves, not_forall] at h
  obtain ⟨place, hplace, hring, hvisit⟩ := h
  exact wrote_foldl_scanPlace distanceBetween fix.coordinate app.places _ hplace hring hvisit

end Locate

theorem wrote_handle {next : App} {event : Event} (h : app.handle event = some next) :
    next.Wrote key ↔ app.Wrote key := by
  obtain ⟨_, _, _, _, _, _, _, rfl⟩ := exists_of_handle h
  rfl

/-- No object of the app has the key. -/
def NoCopy (key : String) (app : App) : Prop := ∀ ref, (app.heap.read ref).key ≠ key

theorem NoCopy.visit (h : app.NoCopy key) (place : Ref) : (app.visit place).2.NoCopy key := by
  have hkey : (Places.visit app.currentUser (app.heap.read place)).2.key ≠ key := by
    rw [Places.key_visit]
    exact h place
  exact visit_rule (NoCopy key) h fun _ ↦
    app.heap.forall_read_write _ (fun object ↦ object.key ≠ key) hkey h

theorem NoCopy.rate (h : app.NoCopy key) (place : Ref) (rating : ℤ) :
    (app.rate place rating).NoCopy key :=
  app.heap.forall_read_write _ (fun object ↦ object.key ≠ key) (h place) h

theorem NoCopy.handle (h : app.NoCopy key) {next : App} {event : Event} (hevent : event.key ≠ key)
    (hhandle : app.handle event = some next) : next.NoCopy key := by
  obtain ⟨decoded, newPlace, _, _, _, hdecoded, hsame, rfl⟩ := exists_of_handle hhandle
  have hkey : newPlace.key = event.key :=
    (Place.key_eq_of_withoutImages hsame).trans (Place.decodes_iff.mp hdecoded).key
  exact app.heap.forall_read_alloc newPlace (fun object ↦ object.key ≠ key) (hkey ▸ hevent) h

end App

/-! ### The network after a removal -/

namespace Network

variable {ι : Type}

/-- The node does not exist, and no write to it is under way. -/
def Removed (key : String) (network : Network ι) : Prop :=
  network.database key = none ∧ ∀ client, ¬ (network.client client).app.Wrote key

variable {network : Network ι} {key : String}

theorem removed_commit (h : network.Removed key) {write : Write} (hwrite : write.key ≠ key) :
    (network.commit write).Removed key :=
  ⟨by rw [database_commit_of_ne hwrite.symm]; exact h.1, h.2⟩

variable [DecidableEq ι] {client : ι} {changed : Client}

theorem removed_setClient (h : network.Removed key) (hchanged : ¬ changed.app.Wrote key) :
    (network.setClient client changed).Removed key :=
  ⟨h.1, forall_setClient (fun other ↦ ¬ other.app.Wrote key) hchanged h.2⟩

/-- A changed client that has a write to the node under way if it had one before. -/
theorem not_removed_setClient (h : ¬ network.Removed key)
    (hchanged : (network.client client).app.Wrote key → changed.app.Wrote key) :
    ¬ (network.setClient client changed).Removed key := by
  intro hremoved
  refine h ⟨hremoved.1, fun other hother ↦ hremoved.2 other ?_⟩
  by_cases hsame : other = client
  · rw [hsame, client_setClient_self]
    exact hchanged (hsame ▸ hother)
  · rw [client_setClient_of_ne hsame]
    exact hother

theorem not_removed_of_wrote (hchanged : changed.app.Wrote key) :
    ¬ (network.setClient client changed).Removed key :=
  fun hremoved ↦ hremoved.2 client (by rw [client_setClient_self]; exact hchanged)

variable (distanceBetween : Point → Point → ℚ)

/-- The step makes no call that writes the place. -/
def Leaves (key : String) (network : Network ι) : Action ι → Prop
  | .visit client place => (network.client client).app.VisitLeaves key place
  | .rate client place _ => ((network.client client).app.heap.read place).key ≠ key
  | .locate client fix => (network.client client).app.LocateLeaves distanceBetween key fix
  | .apply .. | .deliver .. | .observe .. | .remove _ => True

instance : DecidablePred (network.Leaves (ι := ι) distanceBetween key)
  | .visit client place =>
    inferInstanceAs (Decidable ((network.client client).app.VisitLeaves key place))
  | .rate client place _ =>
    inferInstanceAs (Decidable (((network.client client).app.heap.read place).key ≠ key))
  | .locate client fix =>
    inferInstanceAs (Decidable ((network.client client).app.LocateLeaves distanceBetween key fix))
  | .apply .. | .deliver .. | .observe .. | .remove _ => .isTrue trivial

variable {next : Network ι} {action : Action ι}

/-- A step without such a call keeps the node absent. -/
theorem Removed.step (h : network.Removed key) (hleaves : network.Leaves distanceBetween key action)
    (hstep : network.step distanceBetween action = some next) : next.Removed key := by
  cases action with
  | visit client place =>
    obtain rfl := Option.some.inj hstep
    exact removed_setClient h (App.not_wrote_visit (h.2 client) hleaves)
  | rate client place rating =>
    obtain rfl := Option.some.inj hstep
    exact removed_setClient h (App.not_wrote_append (h.2 client) hleaves)
  | locate client fix =>
    obtain rfl := Option.some.inj hstep
    exact removed_setClient h
      (App.not_wrote_locationUpdated distanceBetween (h.2 client) hleaves _)
  | apply client index =>
    obtain ⟨write, hwrite, rfl⟩ := Option.map_eq_some_iff.mp hstep
    have hkey : write.key ≠ key := fun hkey ↦
      h.2 client ⟨write, List.mem_of_getElem? hwrite, hkey⟩
    have hrest : ¬ App.Wrote key { (network.client client).app with
        outbox := (network.client client).app.outbox.eraseIdx index } :=
      fun ⟨other, hother, hsame⟩ ↦ h.2 client ⟨other, List.mem_of_mem_eraseIdx hother, hsame⟩
    exact removed_commit (removed_setClient h hrest) hkey
  | deliver client index =>
    obtain ⟨event, hevent, hhandled⟩ := Option.bind_eq_some_iff.mp hstep
    obtain ⟨app, happ, rfl⟩ := Option.map_eq_some_iff.mp hhandled
    exact removed_setClient h ((App.wrote_handle happ).not.mpr (h.2 client))
  | observe client kind other =>
    obtain ⟨record, _, rfl⟩ := Option.map_eq_some_iff.mp hstep
    exact removed_setClient h (h.2 client)
  | remove other =>
    obtain rfl := Option.some.inj hstep
    refine ⟨?_, h.2⟩
    by_cases hother : key = other
    · rw [hother]
      exact Function.update_self ..
    · exact (Function.update_of_ne hother ..).trans h.1

/-- A step with such a call leaves a write to the node under way. -/
theorem not_removed_of_not_leaves (hleaves : ¬ network.Leaves distanceBetween key action)
    (hstep : network.step distanceBetween action = some next) : ¬ next.Removed key := by
  cases action with
  | visit client place =>
    obtain rfl := Option.some.inj hstep
    exact not_removed_of_wrote (App.wrote_visit_of_not_leaves hleaves)
  | rate client place rating =>
    obtain rfl := Option.some.inj hstep
    have hkey : ((network.client client).app.heap.read place).key = key := not_not.mp hleaves
    refine not_removed_of_wrote ⟨_, List.mem_append_right _ List.mem_cons_self, ?_⟩
    exact hkey
  | locate client fix =>
    obtain rfl := Option.some.inj hstep
    exact not_removed_of_wrote (App.wrote_locationUpdated distanceBetween hleaves _)
  | apply | deliver | observe | remove => exact absurd trivial hleaves

/-- A write under way is applied sooner or later, and what it has created stays unless the node is
removed again. -/
theorem not_removed_step (h : ¬ network.Removed key) (haction : action ≠ .remove key)
    (hstep : network.step distanceBetween action = some next) : ¬ next.Removed key := by
  cases action with
  | visit client place =>
    obtain rfl := Option.some.inj hstep
    exact not_removed_setClient h fun hwrote ↦ hwrote.visit place
  | rate client place rating =>
    obtain rfl := Option.some.inj hstep
    exact not_removed_setClient h fun hwrote ↦ hwrote.rate place rating
  | locate client fix =>
    obtain rfl := Option.some.inj hstep
    exact not_removed_setClient h fun hwrote ↦ hwrote.locationUpdated distanceBetween _ fix
  | apply client index =>
    obtain ⟨write, hwrite, rfl⟩ := Option.map_eq_some_iff.mp hstep
    by_cases hkey : write.key = key
    · rintro ⟨habsent, _⟩
      rw [← hkey, database_commit_self] at habsent
      cases habsent
    · rintro ⟨habsent, hwrote⟩
      rw [database_commit_of_ne (Ne.symm hkey)] at habsent
      refine not_removed_setClient h ?_ ⟨habsent, hwrote⟩
      rintro ⟨other, hother, hsame⟩
      obtain ⟨position, hposition⟩ := List.mem_iff_getElem?.mp hother
      refine ⟨other, List.mem_eraseIdx_iff_getElem?.mpr ⟨position, ?_, hposition⟩, hsame⟩
      rintro rfl
      rw [hwrite, Option.some.injEq] at hposition
      exact hkey (hposition ▸ hsame)
  | deliver client index =>
    obtain ⟨event, hevent, hhandled⟩ := Option.bind_eq_some_iff.mp hstep
    obtain ⟨app, happ, rfl⟩ := Option.map_eq_some_iff.mp hhandled
    exact not_removed_setClient h (App.wrote_handle happ).mpr
  | observe client kind other =>
    obtain ⟨record, _, rfl⟩ := Option.map_eq_some_iff.mp hstep
    exact not_removed_setClient h id
  | remove other =>
    obtain rfl := Option.some.inj hstep
    have hother : key ≠ other := fun heq ↦ haction (heq ▸ rfl)
    rintro ⟨habsent, hwrote⟩
    exact h ⟨(Function.update_of_ne hother ..).symm.trans habsent, hwrote⟩

/-- Assumes: a node that does not exist and to which no write is under way, as after its removal. If
no step of a run makes a call that writes the place, the node is absent in every state of the run.
Conversely, if the node is absent in every state of a run that does not remove it again and after
which every write has been applied, then no step of the run made such a call. -/
theorem absent_iff_leaves {start final : Network ι} (habsent : start.database key = none)
    (hpending : ∀ client, ∀ write ∈ (start.client client).app.outbox, write.key ≠ key)
    {actions : List (Action ι)}
    (hrun : PartialRun.run (step distanceBetween) start actions = some final) :
    (PartialRun.Guarded (step distanceBetween) (Leaves distanceBetween key) start actions →
      PartialRun.Throughout (step distanceBetween) (fun network ↦ network.database key = none)
        start actions) ∧
    ((∀ action ∈ actions, action ≠ .remove key) →
      (∀ client, (final.client client).app.outbox = []) →
      PartialRun.Throughout (step distanceBetween) (fun network ↦ network.database key = none)
        start actions →
      PartialRun.Guarded (step distanceBetween) (Leaves distanceBetween key) start actions) := by
  have hstart : start.Removed key :=
    ⟨habsent, fun client ⟨write, hwrite, hkey⟩ ↦ hpending client write hwrite hkey⟩
  refine ⟨fun hguarded ↦ ?_, fun hagain hsettled hthroughout ↦ ?_⟩
  · exact PartialRun.throughout_of_guarded
      (fun _ _ _ hstate hleaves hstep ↦ hstate.step distanceBetween hleaves hstep)
      (fun _ hstate ↦ hstate.1) hstart hguarded
  · have hend := PartialRun.final_of_throughout hthroughout hrun
    have hfinal : final.Removed key := by
      refine ⟨hend, fun client ⟨write, hwrite, _⟩ ↦ ?_⟩
      rw [hsettled client] at hwrite
      cases hwrite
    exact PartialRun.guarded_of_final
      (fun _ _ _ hleaves hstep ↦ not_removed_of_not_leaves distanceBetween hleaves hstep)
      (fun action haction _ _ hstate hstep ↦
        not_removed_step distanceBetween hstate (hagain action haction) hstep)
      hrun (not_not.mpr hfinal)

/-- A client with no copy of the place and no event for it. -/
def Unaware (key : String) (client : Client) : Prop :=
  client.app.NoCopy key ∧ ∀ event ∈ client.inbox, event.key ≠ key

omit [DecidableEq ι] in
/-- A client with no copy makes no call that writes the place. -/
theorem leaves_of_unaware (h : ∀ client, Unaware key (network.client client)) :
    network.Leaves distanceBetween key action := by
  cases action with
  | visit client place => exact fun hkey ↦ absurd hkey ((h client).1 place)
  | rate client place rating => exact (h client).1 place
  | locate client fix => exact fun place _ _ hkey ↦ absurd hkey ((h client).1 place)
  | apply | deliver | observe | remove => trivial

theorem unaware_step (h : ∀ client, Unaware key (network.client client))
    (hremoved : network.Removed key) (hstep : network.step distanceBetween action = some next) :
    ∀ client, Unaware key (next.client client) := by
  cases action with
  | visit client place =>
    obtain rfl := Option.some.inj hstep
    exact forall_setClient (Unaware key) ⟨(h client).1.visit place, (h client).2⟩ h
  | rate client place rating =>
    obtain rfl := Option.some.inj hstep
    exact forall_setClient (Unaware key) ⟨(h client).1.rate place rating, (h client).2⟩ h
  | locate client fix =>
    obtain rfl := Option.some.inj hstep
    refine forall_setClient (Unaware key) ⟨?_, (h client).2⟩ h
    exact locationUpdated_app distanceBetween (App.NoCopy key)
      (fun _ hother place _ _ ↦ hother.visit place) (h client).1 (network.client client).view
  | apply client index =>
    obtain ⟨write, hwrite, rfl⟩ := Option.map_eq_some_iff.mp hstep
    have hkey : write.key ≠ key := fun hkey ↦
      hremoved.2 client ⟨write, List.mem_of_getElem? hwrite, hkey⟩
    have hchanged : Unaware key { network.client client with
        app := { (network.client client).app with
          outbox := (network.client client).app.outbox.eraseIdx index } } := h client
    intro other
    obtain ⟨hcopy, hinbox⟩ : Unaware key ((network.setClient client _).client other) :=
      forall_setClient (Unaware key) hchanged h other
    refine ⟨hcopy, fun event hevent ↦ ?_⟩
    rcases List.mem_append.mp hevent with hold | hnew
    · exact hinbox event hold
    · rw [List.mem_singleton.mp hnew]
      exact hkey
  | deliver client index =>
    obtain ⟨event, hevent, hhandled⟩ := Option.bind_eq_some_iff.mp hstep
    obtain ⟨app, happ, rfl⟩ := Option.map_eq_some_iff.mp hhandled
    have hnew : Unaware key { network.client client with
        app, inbox := (network.client client).inbox.eraseIdx index } :=
      ⟨(h client).1.handle ((h client).2 event (List.mem_of_getElem? hevent)) happ,
        fun other hother ↦ (h client).2 other (List.mem_of_mem_eraseIdx hother)⟩
    exact forall_setClient (Unaware key) hnew h
  | observe client kind other =>
    obtain ⟨record, hrecord, rfl⟩ := Option.map_eq_some_iff.mp hstep
    refine forall_setClient (Unaware key) ⟨(h client).1, fun event hevent ↦ ?_⟩ h
    rcases List.mem_append.mp hevent with hold | hnew
    · exact (h client).2 event hold
    · rw [List.mem_singleton.mp hnew]
      rintro rfl
      rw [hremoved.1] at hrecord
      cases hrecord
  | remove other =>
    obtain rfl := Option.some.inj hstep
    exact h

/-- Assumes: clients that hold no copy of a place whose node does not exist, and nothing for it
under way. No run brings the node back, whatever the clients do. -/
theorem absent_of_unaware {start final : Network ι} (hremoved : start.Removed key)
    (hunaware : ∀ client, Unaware key (start.client client)) {actions : List (Action ι)}
    (hrun : PartialRun.run (step distanceBetween) start actions = some final) :
    final.database key = none := by
  have hkeep : ∀ action ∈ actions, ∀ network next : Network ι,
      (network.Removed key ∧ ∀ client, Unaware key (network.client client)) →
      network.step distanceBetween action = some next →
      next.Removed key ∧ ∀ client, Unaware key (next.client client) :=
    fun _ _ _ _ ⟨hstate, hclients⟩ hstep ↦
      ⟨hstate.step distanceBetween (leaves_of_unaware distanceBetween hclients) hstep,
        unaware_step distanceBetween hclients hstate hstep⟩
  exact (PartialRun.run_invariant_on hkeep ⟨hremoved, hunaware⟩ hrun).1.1

/-- Two devices whose stores hold a place with the visitor `ana`, after the removal of its node. -/
def sampleRemoved : Network Bool where
  database _ := none
  client first :=
    { sampleNetwork.client first with
      app := { (sampleNetwork.client first).app with
        heap := ⟨fun _ ↦ { samplePlace with visitors := ["ana"] }, 1⟩ } }

/-- `ana` walks by, and the place is visited once more: both calls leave it as it is. -/
theorem absent_iff_leaves_sample :
    PartialRun.Throughout (step sampleDistance) (fun network ↦ network.database "boyana" = none)
      sampleRemoved [.locate true ⟨⟨92, 23⟩, none⟩, .visit true 0] := by
  have hruns : (PartialRun.run (step sampleDistance) sampleRemoved
      [.locate true ⟨⟨92, 23⟩, none⟩, .visit true 0]).isSome := by
    decide +kernel
  obtain ⟨final, hrun⟩ := Option.isSome_iff_exists.mp hruns
  exact (absent_iff_leaves sampleDistance rfl (fun _ _ hwrite ↦ by cases hwrite) hrun).1
    (by decide +kernel)

/-- A user whose store held the place before its node was removed, with nothing under way, walks by:
the visit is accepted, and its write makes the node exist again. -/
theorem absent_counterexample :
    (∀ client, (sampleNetwork.client client).app.outbox = [] ∧
      (sampleNetwork.client client).inbox = []) ∧
    ((PartialRun.run (step sampleDistance) sampleNetwork [.remove "boyana"]).map fun network ↦
      (network.database "boyana").isSome) = some false ∧
    ((PartialRun.run (step sampleDistance) sampleNetwork
        [.remove "boyana", .locate true ⟨⟨42, 23⟩, none⟩, .apply true 0]).map fun network ↦
      (network.database "boyana").isSome) = some true := by
  refine ⟨fun _ ↦ ⟨rfl, rfl⟩, by decide +kernel, by decide +kernel⟩

end Network

end BeenHere
