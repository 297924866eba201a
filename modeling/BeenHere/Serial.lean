import BeenHere.Progress

/-!
# One call at a time

What the app is for is an atlas: one place for each node, and calls that change the place itself. A
network of clients is not that, since the calls change copies, and a write of a stale copy undoes
what others have done. It is an atlas, though, for users who do not act at the same time: when each
call is made on an object that holds what the record says, while no write for its node is under way,
the network refines the atlas (`follows_of_step`). Whatever else happens in between, in whatever
order the writes for different nodes are applied and the events delivered, the record of every node
for which nothing is under way is what all the calls made on the place so far make of it, one after
the other (`decoded_eq_of_run`), and so is the entry of every store that has taken its events
(`copy_eq_of_run`).
-/

set_option autoImplicit false
set_option relaxedAutoImplicit false

namespace BeenHere

open Firebase ObjectHeap

/-! ### The atlas -/

/-- The places as the app means to keep them, one for each node. -/
abbrev Atlas := String → Option Place

inductive Operation
  | call (key : String) (caller : Option String) (call : Call)
  | remove (key : String)

/-- An operation changes the place itself. -/
def Atlas.perform (atlas : Atlas) : Operation → Atlas
  | .call key caller call =>
    Function.update atlas key ((atlas key).map fun place ↦ Places.perform place (caller, call))
  | .remove key => Function.update atlas key none

/-- The atlas has the place of a call, and a visit is made under a name that the place does not
list. -/
def Atlas.Accepts (atlas : Atlas) : Operation → Prop
  | .call key caller .visit =>
    ∃ place, atlas key = some place ∧ Places.visitName caller place ∉ place.visitors
  | .call key _ (.rate _) => ∃ place, atlas key = some place
  | .remove _ => True

/-- Operations that an atlas accepts one after the other. -/
def Atlas.Legal : Atlas → List Operation → Prop
  | _, [] => True
  | atlas, operation :: rest => atlas.Accepts operation ∧ Atlas.Legal (atlas.perform operation) rest

namespace Atlas

variable {atlas : Atlas} {operation : Operation}

theorem legal_singleton : atlas.Legal [operation] ↔ atlas.Accepts operation :=
  and_iff_left trivial

theorem legal_append {first second : List Operation} : atlas.Legal (first ++ second) ↔
    atlas.Legal first ∧ (first.foldl perform atlas).Legal second := by
  induction first generalizing atlas with
  | nil => exact (and_iff_right trivial).symm
  | cons operation rest ih =>
    rw [List.cons_append, Legal, ih, Legal, List.foldl_cons, and_assoc]

end Atlas

theorem Place.write_eq_of_withoutImages {first second : Place}
    (h : first.withoutImages = second.withoutImages) : first.write = second.write := by
  have hwrite := congrArg Place.write h
  exact hwrite

namespace Network

variable {ι : Type}

/-- The atlas that a network shows before anything is under way. -/
def atlas (network : Network ι) : Atlas := fun key ↦ (network.decoded key).join

/-- No write for the node is under way. -/
def Quiet (network : Network ι) (key : String) : Prop :=
  ∀ client, (network.client client).app.pending key = []

/-- The object of a client is what the record of its node says, and no write for the node is under
way. -/
def Current (network : Network ι) (client : ι) (ref : Ref) : Prop :=
  let place := (network.client client).app.heap.read ref
  network.Quiet place.key ∧ network.decoded place.key = some (some place.withoutImages)

/-- Calls that write are made on current objects, and nodes are removed while no write for them is
under way. -/
def Serial (distanceBetween : Point → Point → ℚ) (network : Network ι) : Action ι → Prop
  | .visit client place =>
    (network.client client).app.accepts place = true → network.Current client place
  | .rate client place _ => network.Current client place
  | .locate client fix =>
    let app := (network.client client).app
    ∀ place ∈ app.nearby distanceBetween fix.coordinate app.places,
      app.accepts place = true → network.Current client place
  | .remove key => network.Quiet key
  | _ => True

instance [Fintype ι] (network : Network ι) (key : String) : Decidable (network.Quiet key) :=
  inferInstanceAs (Decidable (∀ _, _))

instance [Fintype ι] (network : Network ι) (client : ι) (ref : Ref) :
    Decidable (network.Current client ref) :=
  inferInstanceAs (Decidable (_ ∧ _))

instance [Fintype ι] (distanceBetween : Point → Point → ℚ) (network : Network ι) :
    DecidablePred (network.Serial distanceBetween)
  | .visit _ _ => inferInstanceAs (Decidable (_ → _))
  | .rate client place _ => inferInstanceAs (Decidable (network.Current client place))
  | .locate _ _ => inferInstanceAs (Decidable (∀ _ ∈ _, _))
  | .remove key => inferInstanceAs (Decidable (network.Quiet key))
  | .apply _ _ | .deliver _ _ | .observe _ _ _ => inferInstanceAs (Decidable True)

/-- What a step does to the atlas. -/
def operations (distanceBetween : Point → Point → ℚ) (network : Network ι) (action : Action ι) :
    List Operation :=
  match action with
  | .remove key => [.remove key]
  | action => (network.calls distanceBetween action).map fun made ↦ .call made.1 made.2.1 made.2.2

/-- Where a network keeps a place of the atlas: in its record, or in the one write for the node that
is under way. -/
inductive Tracks (network : Network ι) (key : String) : Option Place → Prop
  | record (place : Option Place) (hquiet : network.Quiet key)
      (hdecoded : network.decoded key = place.map fun place ↦ some place.withoutImages) :
      Tracks network key place
  | write (client : ι) (place : Place) (halone : network.Alone client key)
      (hpending : (network.client client).app.pending key = [place.write]) :
      Tracks network key (some place)

/-- The network is where the operations lead the atlas, which accepts them. -/
structure Follows (atlas : Atlas) (operations : List Operation) (network : Network ι) : Prop where
  legal : atlas.Legal operations
  tracks : ∀ key, network.Tracks key (operations.foldl Atlas.perform atlas key)

variable {network next : Network ι} {key : String} {atlas : Atlas}

/-- A place depends on its record and on the writes for its node. -/
theorem Tracks.of_same {place : Option Place} (h : network.Tracks key place)
    (hdecoded : next.decoded key = network.decoded key)
    (hpending : ∀ client, (next.client client).app.pending key =
      (network.client client).app.pending key) : next.Tracks key place := by
  cases h with
  | record place hquiet hrecord =>
    exact .record place (fun client ↦ (hpending client).trans (hquiet client))
      (hdecoded.trans hrecord)
  | write client place halone hwrite =>
    exact .write client place (fun other hother ↦ (hpending other).trans (halone other hother))
      ((hpending client).trans hwrite)

theorem Tracks.decoded_of_quiet {place : Option Place} (h : network.Tracks key place)
    (hquiet : network.Quiet key) :
    network.decoded key = place.map fun place ↦ some place.withoutImages := by
  cases h with
  | record place _ hdecoded => exact hdecoded
  | write owner held _ hpending =>
    rw [hquiet owner] at hpending
    cases hpending

/-- The atlas has the current objects. -/
theorem Tracks.of_current {place : Option Place} (h : network.Tracks key place)
    (hquiet : network.Quiet key) {object : Place}
    (hobject : network.decoded key = some (some object.withoutImages)) :
    ∃ held, place = some held ∧ held.withoutImages = object.withoutImages := by
  obtain ⟨held, hheld, hsame⟩ :=
    Option.map_eq_some_iff.mp ((h.decoded_of_quiet hquiet).symm.trans hobject)
  exact ⟨held, hheld, Option.some.inj hsame⟩

theorem Tracks.eq_write_of_mem {place : Option Place} (h : network.Tracks key place) {client : ι}
    {write : Write} (hwrite : write ∈ (network.client client).app.pending key) :
    ∃ held, place = some held ∧ write = held.write := by
  cases h with
  | record place hquiet _ =>
    rw [hquiet client] at hwrite
    cases hwrite
  | write owner held halone hpending =>
    refine ⟨held, rfl, ?_⟩
    by_cases hclient : client = owner
    · rw [hclient, hpending] at hwrite
      exact List.mem_singleton.mp hwrite
    · rw [halone client hclient] at hwrite
      cases hwrite

theorem Follows.append {first second : List Operation} (hfirst : Follows atlas first network)
    (hsecond : Follows (first.foldl Atlas.perform atlas) second next) :
    Follows atlas (first ++ second) next := by
  refine ⟨Atlas.legal_append.mpr ⟨hfirst.legal, hsecond.legal⟩, fun key ↦ ?_⟩
  rw [List.foldl_append]
  exact hsecond.tracks key

variable [DecidableEq ι] {client : ι} {ref : Ref}

/-! ### Calls -/

/-- A call on a current object that writes it. -/
theorem follows_writeBack (h : ∀ key, network.Tracks key (atlas key))
    (hcurrent : network.Current client ref) {caller : Option String} {call : Call} {changed : Place}
    (hchanged : changed =
      Places.perform ((network.client client).app.heap.read ref) (caller, call))
    (haccepted : call = .visit → Places.visitName caller
      ((network.client client).app.heap.read ref) ∉
        ((network.client client).app.heap.read ref).visitors) (view : Locator) :
    Follows atlas [.call ((network.client client).app.heap.read ref).key caller call]
      (network.setClient client { network.client client with
        app := (network.client client).app.writeBack ref changed, view }) := by
  have hkey : changed.key = ((network.client client).app.heap.read ref).key :=
    hchanged ▸ Places.key_perform _ _
  obtain ⟨hquiet, hdecoded⟩ := hcurrent
  refine ⟨Atlas.legal_singleton.mpr ?_, fun key ↦ ?_⟩
  · obtain ⟨held, hheld, hobject⟩ := (h _).of_current hquiet hdecoded
    cases call with
    | visit =>
      refine ⟨held, hheld, ?_⟩
      have hname : Places.visitName caller held.withoutImages =
          Places.visitName caller ((network.client client).app.heap.read ref).withoutImages :=
        congrArg (Places.visitName caller) hobject
      rw [Place.visitors_eq_of_withoutImages hobject]
      exact fun hmem ↦ haccepted rfl (hname ▸ hmem)
    | rate rating => exact ⟨held, hheld⟩
  rw [List.foldl_cons, List.foldl_nil]
  by_cases hsame : key = ((network.client client).app.heap.read ref).key
  · rw [← hsame] at hkey hquiet hdecoded
    obtain ⟨held, hheld, hobject⟩ := (h key).of_current hquiet hdecoded
    have hwrite : changed.write = (Places.perform held (caller, call)).write := by
      rw [hchanged]
      exact Place.write_eq_of_withoutImages (Places.withoutImages_perform hobject.symm _)
    rw [← hsame, Atlas.perform, Function.update_self, hheld, Option.map_some]
    refine .write client _ (fun other hother ↦ ?_) ?_
    · rw [client_setClient_of_ne hother]
      exact hquiet other
    · have hpending : ((network.client client).app.writeBack ref changed).pending key =
          (network.client client).app.pending key ++ [changed.write] :=
        App.pending_append _ _ hkey
      rw [client_setClient_self]
      exact hpending.trans (by rw [hquiet client, List.nil_append, hwrite])
  · rw [Atlas.perform, Function.update_of_ne hsame]
    refine (h key).of_same rfl (pending_setClient ?_)
    exact App.pending_writeBack_of_ne (hkey.symm ▸ Ne.symm hsame)

/-- The operations of a visit. -/
def visits (app : App) (places : List Ref) : List Operation :=
  (places.filter app.accepts).map fun place ↦
    .call (app.heap.read place).key app.currentUser .visit

theorem follows_visit (h : ∀ key, network.Tracks key (atlas key))
    (hserial : (network.client client).app.accepts ref = true → network.Current client ref)
    (view : Locator) :
    Follows atlas (visits (network.client client).app [ref])
      (network.setClient client { network.client client with
        app := ((network.client client).app.visit ref).2, view }) := by
  cases haccepts : (network.client client).app.accepts ref with
  | false =>
    rw [App.visit_of_mem (App.accepts_eq_false_iff.mp haccepts), visits,
      List.filter_cons_of_neg (by simp [haccepts])]
    exact ⟨trivial, fun key ↦ (h key).of_same rfl (pending_setClient rfl)⟩
  | true =>
    have hwritten : ((network.client client).app.visit ref).2 =
        (network.client client).app.writeBack ref ((network.client client).app.visited ref) := by
      rw [App.visit_of_notMem (App.accepts_iff.mp haccepts), App.writeBack, App.visited,
        Places.key_visit]
    have hvisited : (network.client client).app.visited ref =
        Places.perform ((network.client client).app.heap.read ref)
          ((network.client client).app.currentUser, .visit) := rfl
    rw [hwritten, visits, List.filter_cons_of_pos haccepts]
    exact follows_writeBack h (hserial haccepts) hvisited
      (fun _ ↦ App.accepts_iff.mp haccepts) view

/-- A visit of another place leaves an object current. -/
theorem Current.visit {other : Ref} (h : network.Current client other)
    (hne : ((network.client client).app.heap.read ref).key ≠
      ((network.client client).app.heap.read other).key) (view : Locator) :
    (network.setClient client { network.client client with
      app := ((network.client client).app.visit ref).2, view }).Current client other := by
  have hother : other ≠ ref := by
    rintro rfl
    exact hne rfl
  have hread : ((network.client client).app.visit ref).2.heap.read other =
      (network.client client).app.heap.read other := by
    rw [← App.visitAll_singleton, App.read_visitAll_of_notMem (by simpa using hother)]
  have hpending : ((network.client client).app.visit ref).2.pending
      ((network.client client).app.heap.read other).key =
        (network.client client).app.pending ((network.client client).app.heap.read other).key :=
    App.visit_rule (fun app ↦ app.pending ((network.client client).app.heap.read other).key =
      (network.client client).app.pending ((network.client client).app.heap.read other).key) rfl
      fun _ ↦ App.pending_writeBack_of_ne (by rwa [Places.key_visit])
  rw [Current, client_setClient_self]
  dsimp only
  rw [hread]
  exact ⟨fun owner ↦ (pending_setClient hpending owner).trans (h.1 owner), h.2⟩

theorem visits_cons (app : App) (place : Ref) (rest : List Ref) (hplace : place ∉ rest) :
    visits app (place :: rest) = visits app [place] ++ visits (app.visit place).2 rest := by
  have hother {other : Ref} (hmem : other ∈ rest) : other ∉ [place] := by
    rw [List.mem_singleton]
    rintro rfl
    exact hplace hmem
  have hfilter : rest.filter (app.visit place).2.accepts = rest.filter app.accepts :=
    List.filter_congr fun other hmem ↦ by
      rw [← App.visitAll_singleton, App.accepts_visitAll_of_notMem (hother hmem)]
  have hmap : (rest.filter app.accepts).map (fun other ↦ Operation.call
      ((app.visit place).2.heap.read other).key (app.visit place).2.currentUser .visit) =
      (rest.filter app.accepts).map fun other ↦
        .call (app.heap.read other).key app.currentUser .visit :=
    List.map_congr_left fun other hmem ↦ by
      rw [← App.visitAll_singleton,
        App.read_visitAll_of_notMem (hother (List.mem_filter.mp hmem).1)]
      rfl
  rw [visits, visits, visits, hfilter, hmap, ← List.map_append, ← List.filter_append,
    List.singleton_append]

theorem setClient_setClient (network : Network ι) (client : ι) (first second : Client) :
    (network.setClient client first).setClient client second = network.setClient client second := by
  rw [setClient, setClient, setClient, Function.update_idem]

/-- One fix visits several places. -/
theorem follows_visitAll {places : List Ref} (h : ∀ key, network.Tracks key (atlas key))
    (hkeys : (places.map fun place ↦
      ((network.client client).app.heap.read place).key).Nodup)
    (hserial : ∀ place ∈ places,
      (network.client client).app.accepts place = true → network.Current client place)
    (view : Locator) :
    Follows atlas (visits (network.client client).app places)
      (network.setClient client { network.client client with
        app := (network.client client).app.visitAll places, view }) := by
  induction places generalizing network atlas with
  | nil =>
    rw [App.visitAll_nil]
    exact ⟨trivial, fun key ↦ (h key).of_same rfl (pending_setClient rfl)⟩
  | cons place rest ih =>
    obtain ⟨hnotMem, hrest⟩ := List.nodup_cons.mp hkeys
    have hne {other : Ref} (hmem : other ∈ rest) :
        ((network.client client).app.heap.read place).key ≠
          ((network.client client).app.heap.read other).key := fun hsame ↦
      hnotMem (List.mem_map.mpr ⟨other, hmem, hsame.symm⟩)
    have hplace : place ∉ rest := fun hmem ↦ hne hmem rfl
    have hdisjoint : [place].Disjoint rest := by simpa using hplace
    have hother {other : Ref} (hmem : other ∈ rest) : other ∉ [place] :=
      fun hfirst ↦ hdisjoint hfirst hmem
    set visited := network.setClient client { network.client client with
      app := ((network.client client).app.visit place).2, view } with hvisited
    have happ : (visited.client client).app = ((network.client client).app.visit place).2 := by
      rw [hvisited, client_setClient_self]
    have hfirst := follows_visit h (hserial place List.mem_cons_self) view
    have hkeysVisited : (rest.map fun other ↦
        ((visited.client client).app.heap.read other).key).Nodup := by
      rw [happ, ← App.visitAll_singleton]
      refine (List.map_congr_left fun other hmem ↦ ?_) ▸ hrest
      rw [App.read_visitAll_of_notMem (hother hmem)]
    have hlater := ih hfirst.tracks hkeysVisited fun other hmem haccepts ↦ ?_
    · have hboth := hfirst.append hlater
      rw [happ, ← visits_cons _ _ _ hplace, ← App.visitAll_singleton,
        App.visitAll_append hdisjoint] at hboth
      rw [client_setClient_self, setClient_setClient] at hboth
      exact hboth
    · rw [happ, ← App.visitAll_singleton, App.accepts_visitAll_of_notMem (hother hmem)] at haccepts
      exact (hserial other (List.mem_cons_of_mem _ hmem) haccepts).visit (hne hmem) view

/-! ### Applications -/

omit [DecidableEq ι] in
/-- The writes for a node around one write of the outbox. -/
theorem exists_pending_of_getElem? {app : App} {index : ℕ} {write : Write}
    (hwrite : app.outbox[index]? = some write) (key : String) :
    ∃ before after,
      app.pending key = before ++ [write].filter (fun write ↦ write.key = key) ++ after ∧
      App.pending { app with outbox := app.outbox.eraseIdx index } key = before ++ after := by
  obtain ⟨hindex, rfl⟩ := List.getElem?_eq_some_iff.mp hwrite
  refine ⟨(app.outbox.take index).filter fun write ↦ write.key = key,
    (app.outbox.drop (index + 1)).filter fun write ↦ write.key = key, ?_, ?_⟩
  · rw [App.pending, ← List.filter_append, ← List.filter_append, List.append_assoc,
      List.singleton_append, List.getElem_cons_drop, List.take_append_drop]
  · rw [App.pending, ← List.filter_append, List.eraseIdx_eq_take_drop_succ]

/-- The server applies a write. Assumes: writes that encode readable places. -/
theorem tracks_apply (h : ∀ key, network.Tracks key (atlas key)) {index : ℕ} {written : Place}
    (hwrite : (network.client client).app.outbox[index]? = some written.write)
    {files : Set String} (hreadable : written.Readable files) (key : String) :
    ((network.setClient client { network.client client with
      app := { (network.client client).app with
        outbox := (network.client client).app.outbox.eraseIdx index } }).commit
          written.write).Tracks key (atlas key) := by
  obtain ⟨before, after, hbefore, hafter⟩ := exists_pending_of_getElem? hwrite key
  by_cases hkey : written.key = key
  · have hfound : [written.write].filter (fun write ↦ write.key = key) = [written.write] :=
      List.filter_cons_of_pos (decide_eq_true hkey)
    rw [hfound] at hbefore
    have htracks := h key
    generalize atlas key = place at htracks ⊢
    cases htracks with
    | record place hquiet _ =>
      rw [hquiet client] at hbefore
      simp at hbefore
    | write owner held halone hpending =>
      obtain rfl : client = owner := by
        by_contra hne
        rw [halone client hne] at hbefore
        simp at hbefore
      -- the write that is applied is the only one
      rw [hpending] at hbefore
      obtain ⟨rfl, rfl, hsame⟩ : before = [] ∧ after = [] ∧ held.write = written.write := by
        cases before with
        | nil => simpa [and_comm] using hbefore
        | cons first rest => simp at hbefore
      subst hkey
      refine .record (some held) (fun other ↦ ?_) ?_
      · rw [app_commit]
        by_cases hother : other = client
        · rw [hother, client_setClient_self]
          exact hafter
        · rw [client_setClient_of_ne hother]
          exact halone other hother
      · have hself : ((network.setClient client { network.client client with
            app := { (network.client client).app with
              outbox := (network.client client).app.outbox.eraseIdx index } }).commit
                written.write).database written.key = _ := database_commit_self written.write
        have hheld := Place.withoutImages_eq_of_dictionaryFromPlace (congrArg Write.values hsame)
        rw [decoded, hself, Option.map_some, Option.map_some, hheld]
        exact congrArg some (hreadable.decodes (network.record written.key) written.key)
  · have hnone : [written.write].filter (fun write ↦ write.key = key) = [] :=
      List.filter_cons_of_neg (by rw [decide_eq_true_iff]; exact hkey)
    rw [hnone, List.append_nil, ← hafter] at hbefore
    refine (h key).of_same ?_ fun other ↦ ?_
    · rw [decoded, database_commit_of_ne (Ne.symm hkey), decoded]
      rfl
    · rw [app_commit]
      exact pending_setClient hbefore.symm other

/-! ### Runs -/

section Runs

variable {files : Set String} (distanceBetween : Point → Point → ℚ)

/-- Every step of a network refines the atlas. Assumes: a running network, and a call that writes on
a current object. -/
theorem follows_of_step (hrunning : network.Running files)
    (h : ∀ key, network.Tracks key (atlas key)) {action : Action ι}
    (hserial : network.Serial distanceBetween action)
    (hstep : network.step distanceBetween action = some next) :
    Follows atlas (network.operations distanceBetween action) next := by
  cases action with
  | visit client place =>
    obtain rfl := Option.some.inj hstep
    have hvisits : network.operations distanceBetween (.visit client place) =
        visits (network.client client).app [place] := by
      cases haccepts : (network.client client).app.accepts place <;>
        simp [operations, calls, visits, haccepts]
    rw [hvisits]
    exact follows_visit h hserial (network.client client).view
  | rate client place rating =>
    obtain rfl := Option.some.inj hstep
    have hrated : Places.rate (network.client client).app.currentUser
        ((network.client client).app.heap.read place) rating =
          Places.perform ((network.client client).app.heap.read place)
            ((network.client client).app.currentUser, .rate rating) := rfl
    exact follows_writeBack h hserial hrated Call.noConfusion (network.client client).view
  | locate client fix =>
    obtain rfl := Option.some.inj hstep
    have hstore := (hrunning.copies.client client).store
    have hvisits : network.operations distanceBetween (.locate client fix) =
        visits (network.client client).app ((network.client client).app.nearby distanceBetween
          fix.coordinate (network.client client).app.places) := List.map_map
    rw [hvisits, hstore.locationUpdated_fst]
    exact follows_visitAll h (hstore.keys.sublist (List.filter_sublist.map _)) hserial _
  | apply client index =>
    obtain ⟨write, hwrite, rfl⟩ := Option.map_eq_some_iff.mp hstep
    obtain ⟨written, hreadable, rfl⟩ :=
      (hrunning.copies.client client).outbox write (List.mem_of_getElem? hwrite)
    exact ⟨trivial, tracks_apply h hwrite hreadable⟩
  | deliver client index =>
    obtain ⟨event, _, hhandled⟩ := Option.bind_eq_some_iff.mp hstep
    obtain ⟨app, happ, rfl⟩ := Option.map_eq_some_iff.mp hhandled
    exact ⟨trivial, fun key ↦
      (h key).of_same rfl (pending_setClient (App.pending_handle happ key))⟩
  | observe client kind other =>
    obtain ⟨record, _, rfl⟩ := Option.map_eq_some_iff.mp hstep
    exact ⟨trivial, fun key ↦ (h key).of_same rfl (pending_setClient rfl)⟩
  | remove other =>
    obtain rfl := Option.some.inj hstep
    refine ⟨Atlas.legal_singleton.mpr trivial, fun key ↦ ?_⟩
    have hoperations : network.operations distanceBetween (.remove other) = [.remove other] := rfl
    rw [hoperations, List.foldl_cons, List.foldl_nil, Atlas.perform]
    by_cases hkey : key = other
    · rw [hkey, Function.update_self]
      refine .record none hserial ?_
      simp [decoded]
    · rw [Function.update_of_ne hkey]
      refine (h key).of_same ?_ fun _ ↦ rfl
      simp [decoded, hkey]

/-- What a run does to the atlas. -/
def operationsOf (start : Network ι) (actions : List (Action ι)) : List Operation :=
  PartialRun.trace (step distanceBetween) (operations distanceBetween) start actions

variable {start final : Network ι} {actions : List (Action ι)}

/-- A run in which the calls are made one at a time. It starts from a sound network with no write
under way; every call is made on an object that has been allocated, every call that writes on an
object that is what the record says, and every node is removed, while no write for the node is under
way. -/
structure TakesTurns (files : Set String) (start : Network ι) (actions : List (Action ι)) :
    Prop where
  sound : start.Sound files
  quiet : ∀ key, start.Quiet key
  live : PartialRun.Guarded (step distanceBetween) Live start actions
  serial : PartialRun.Guarded (step distanceBetween) (Serial distanceBetween) start actions

/-- Assumes: calls that are made one at a time. -/
theorem follows_of_run (h : TakesTurns distanceBetween files start actions)
    (hrun : PartialRun.run (step distanceBetween) start actions = some final) :
    Follows start.atlas (operationsOf distanceBetween start actions) final := by
  have hkeep (done : List Operation) (network : Network ι) (action : Action ι) (next : Network ι)
      (hstate : network.Running files ∧ Follows start.atlas done network)
      (hguard : network.Live action ∧ network.Serial distanceBetween action)
      (hstep : network.step distanceBetween action = some next) :
      next.Running files ∧ Follows start.atlas
        (done ++ network.operations distanceBetween action) next :=
    ⟨hstate.1.step distanceBetween hguard.1 hstep,
      hstate.2.append (follows_of_step distanceBetween hstate.1 hstate.2.tracks hguard.2 hstep)⟩
  have hstart : start.Running files ∧ Follows start.atlas [] start := by
    refine ⟨h.sound.running, trivial, fun key ↦ .record _ (h.quiet key) ?_⟩
    rw [List.foldl_nil, atlas, decoded]
    cases hrecord : start.database key with
    | none => rfl
    | some record =>
      obtain ⟨place, hplace⟩ := Option.isSome_iff_exists.mp (h.sound.records key record hrecord)
      rw [Option.map_some, hplace, Option.join_some, Option.map_some, Place.withoutImages,
        ← (Place.decodes_iff.mp hplace).placeImages]
  exact (PartialRun.run_invariant_trace hkeep hstart (PartialRun.guarded_and h.live h.serial)
    hrun).2

/-- Assumes: users who are signed in under uids that are no numbers, stores that are well formed and
not empty, copies with an image whose first name leads to no directory and without numbers as names
in their ratings, records and events that are decoded, no write under way at the start, and a run in
which every call that writes is made on an object that is what the record says, and every node
removed, while no write for the node is under way (`TakesTurns`). After the run a record for which
no write is under way is what the operations of the run, one after the other, make of the place; and
a write that is under way is of that place. -/
theorem decoded_eq_of_run (h : TakesTurns distanceBetween files start actions)
    (hrun : PartialRun.run (step distanceBetween) start actions = some final) (key : String) :
    start.atlas.Legal (operationsOf distanceBetween start actions) ∧
    let place := (operationsOf distanceBetween start actions).foldl Atlas.perform start.atlas key
    (final.Quiet key →
      final.decoded key = place.map fun place ↦ some place.withoutImages) ∧
    ∀ client, ∀ write ∈ (final.client client).app.pending key,
      ∃ held, place = some held ∧ write = held.write := by
  obtain ⟨hlegal, htracks⟩ := follows_of_run distanceBetween h hrun
  exact ⟨hlegal, (htracks key).decoded_of_quiet, fun _ _ ↦ (htracks key).eq_write_of_mem⟩

/-- The second user rates what the first one has visited. -/
def sampleTurns : List (Action Bool) :=
  [.visit true 0, .apply true 0, .deliver true 0, .deliver false 0, .rate false 1 4, .apply false 0,
    .deliver true 0, .deliver false 0]

/-- `samplePlace` after the two calls. -/
def turnedPlace : Place :=
  Places.perform (Places.perform samplePlace (some "ana", .visit)) (some "boris", .rate 4)

theorem quiet_sampleNetwork (key : String) : sampleNetwork.Quiet key := fun _ ↦ rfl

theorem atlas_sampleTurns :
    (operationsOf sampleDistance sampleNetwork sampleTurns).foldl Atlas.perform sampleNetwork.atlas
      "boyana" = some turnedPlace := by
  decide +kernel

theorem takesTurns_sampleTurns :
    TakesTurns sampleDistance {"boyana.jpg"} sampleNetwork sampleTurns :=
  ⟨sound_sampleNetwork, quiet_sampleNetwork, by decide +kernel, by decide +kernel⟩

theorem decoded_eq_of_run_sample :
    ∃ final, PartialRun.run (step sampleDistance) sampleNetwork sampleTurns = some final ∧
      final.decoded "boyana" = some (some turnedPlace) := by
  have hruns : (PartialRun.run (step sampleDistance) sampleNetwork sampleTurns).map
      (fun final ↦ decide (final.Quiet "boyana")) = some true := by
    decide +kernel
  obtain ⟨final, hrun, hquiet⟩ := Option.map_eq_some_iff.mp hruns
  have hdecoded := (decoded_eq_of_run sampleDistance takesTurns_sampleTurns hrun "boyana").2.1
    (of_decide_eq_true hquiet)
  rw [atlas_sampleTurns] at hdecoded
  exact ⟨final, hrun, hdecoded⟩

/-- Assumes what `decoded_eq_of_run` assumes, events under way at the start that bring every entry
to what the record of its node decodes to, and a run in which no node is removed and every client
takes its events in order. A client that has taken its events for a node shows, when no write for
the node is under way, what the calls of the run, one after the other, make of the place. -/
theorem copy_eq_of_run (h : TakesTurns distanceBetween files start actions)
    (hforecast : ∀ key client, ((start.client client).replica key).forecast = start.decoded key)
    (horder : PartialRun.Guarded (step distanceBetween) InOrder start actions)
    (hrun : PartialRun.run (step distanceBetween) start actions = some final) {key : String}
    (hfinal : final.Quiet key) (client : ι)
    (htaken : Feed.about key (final.client client).inbox = []) :
    (final.client client).app.copy key =
      ((operationsOf distanceBetween start actions).foldl Atlas.perform start.atlas key).map
        fun place ↦ some place.withoutImages := by
  have hfollows := follows_of_run distanceBetween h hrun
  obtain ⟨_, hconverging⟩ := converging_of_run distanceBetween h.sound.ready.store
    (converging_of_forecast (hforecast key)) horder hrun
  have hsettled : final.Settled client key := ⟨hfinal client, htaken⟩
  exact (hconverging.copy_eq hsettled.idle).trans
    ((hfollows.tracks key).decoded_of_quiet hfinal)

theorem copy_eq_of_run_sample :
    ∃ final, PartialRun.run (step sampleDistance) sampleNetwork sampleTurns = some final ∧
      ∀ client, (final.client client).app.copy "boyana" = some (some turnedPlace) := by
  have hruns : (PartialRun.run (step sampleDistance) sampleNetwork sampleTurns).map
      (fun final ↦ decide (final.Quiet "boyana" ∧ ∀ client,
        (Feed.about "boyana" (final.client client).inbox).length = 0)) = some true := by
    decide +kernel
  obtain ⟨final, hrun, hrest⟩ := Option.map_eq_some_iff.mp hruns
  obtain ⟨hquiet, htaken⟩ := of_decide_eq_true hrest
  refine ⟨final, hrun, fun client ↦ ?_⟩
  rw [copy_eq_of_run sampleDistance takesTurns_sampleTurns forecast_sampleNetwork
    (by decide +kernel) hrun hquiet client (List.length_eq_zero_iff.mp (htaken client)),
    atlas_sampleTurns]
  rfl

end Runs

end Network

end BeenHere
