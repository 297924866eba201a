import BeenHere.Library.PartialRun
import BeenHere.Network

/-!
# Clients that edit one place

Several clients visit and rate one place through the entries of their stores, and the session notes
what each user was told: that a visit was accepted, and the rating that was submitted last. Each
call writes the whole record of the client's copy. The record keeps everything that was noted in the
runs in which every call that writes is up to date (`recorded_of_upToDate`): no other client has a
write to the place under way, and the copy has every visitor and every rating that the record will
have. Two users who visit at once are both told that they have visited the place, and the record
loses one of them (`recorded_counterexample`).

The invariant is about the record that a client's own pending writes will leave (`forecast`).
-/

set_option autoImplicit false
set_option relaxedAutoImplicit false

namespace BeenHere

open Firebase ObjectHeap

/-- The network with a note of the clients whose visit was accepted, and of the last rating of each
client. -/
structure Session (ι : Type) where
  network : Network ι
  visited : List ι
  rated : ι → Option ℤ

namespace Session

/-- A call of a client on its entry for the place, the application of the oldest write of a client,
and the delivery of the oldest event of a client. -/
inductive Action (ι : Type)
  | visit (client : ι)
  | rate (client : ι) (rating : ℤ)
  | apply (client : ι)
  | deliver (client : ι)

variable {ι : Type} [DecidableEq ι] (distanceBetween : Point → Point → ℚ) (key : String)

def step (session : Session ι) : Action ι → Option (Session ι)
  | .visit client =>
    let app := (session.network.client client).app
    (app.entry key).bind fun place ↦
      (session.network.step distanceBetween (.visit client place)).map fun network ↦
        { session with
          network
          visited := if (app.visit place).1 then session.visited ++ [client]
            else session.visited }
  | .rate client rating =>
    ((session.network.client client).app.entry key).bind fun place ↦
      (session.network.step distanceBetween (.rate client place rating)).map fun network ↦
        { session with network, rated := Function.update session.rated client (some rating) }
  | .apply client =>
    (session.network.step distanceBetween (.apply client 0)).map fun network ↦
      { session with network }
  | .deliver client =>
    (session.network.step distanceBetween (.deliver client 0)).map fun network ↦
      { session with network }

end Session

/-! ### The record that a client's own writes will leave -/

/-- The writes of an app to a node that the server has not applied, oldest first. -/
def App.pending (app : App) (key : String) : List Write :=
  app.outbox.filter fun write ↦ write.key = key

namespace Network

variable {ι : Type}

/-- The record of a node after the pending writes of one client. -/
def forecast (network : Network ι) (client : ι) (key : String) : Record :=
  ((network.client client).app.pending key).foldl
    (fun record write ↦ record.updateChildValues write.values) (network.record key)

/-- No client but one has a write to the node under way. -/
def Alone (network : Network ι) (client : ι) (key : String) : Prop :=
  ∀ other, other ≠ client → (network.client other).app.pending key = []

/-- Two clients that are both alone forecast the same record. -/
theorem forecast_eq_of_alone {network : Network ι} {first second : ι} {key : String}
    (hfirst : network.Alone first key) (hsecond : network.Alone second key) :
    network.forecast first key = network.forecast second key := by
  by_cases hsame : first = second
  · rw [hsame]
  · rw [forecast, forecast, hsecond first hsame, hfirst second (Ne.symm hsame)]

section Steps

variable [DecidableEq ι] {network : Network ι} {client owner : ι} {key : String} {changed : Client}

theorem alone_setClient (h : network.Alone client key) :
    (network.setClient client changed).Alone client key := fun other hother ↦ by
  rw [client_setClient_of_ne hother]
  exact h other hother

/-- A step of a client that adds no write to the node changes no forecast. -/
theorem pending_setClient
    (hpending : changed.app.pending key = (network.client client).app.pending key) (other : ι) :
    ((network.setClient client changed).client other).app.pending key =
      (network.client other).app.pending key := by
  by_cases hother : other = client
  · rw [hother, client_setClient_self, hpending]
  · rw [client_setClient_of_ne hother]

/-- A call that writes the place adds its write to the forecast of the client. -/
theorem forecast_setClient_append {write : Write}
    (hpending : changed.app.pending key = (network.client client).app.pending key ++ [write]) :
    (network.setClient client changed).forecast client key =
      (network.forecast client key).updateChildValues write.values := by
  rw [forecast, client_setClient_self, hpending, List.foldl_append]
  rfl

end Steps

end Network

theorem App.pending_append (app : App) (heap : Heap Place) {key : String} {write : Write}
    (hkey : write.key = key) :
    App.pending { app with heap := heap, outbox := app.outbox ++ [write] } key =
      app.pending key ++ [write] := by
  simp [App.pending, hkey]

/-! ### The invariant -/

namespace Session

/-- A record holds everything that a session has noted. -/
structure Recorded {ι : Type} (uid : ι → String) (session : Session ι) (record : Record) :
    Prop where
  visited : ∀ client ∈ session.visited, record.listsVisitor (uid client) = true
  rated : ∀ client rating, session.rated client = some rating →
    record.ratingOf (uid client) = some (.number rating)

/-- A copy has every visitor of a record. -/
def HasVisitors (place : Place) (record : Record) : Prop :=
  ∀ user, record.listsVisitor user = true → user ∈ place.visitors

/-- A copy has the rating of a user in a record. -/
def HasRating (place : Place) (record : Record) (user : String) : Prop :=
  ∀ rating : ℤ, record.ratingOf user = some (.number rating) →
    place.ratings.lookup user = some rating

variable {ι : Type} (key : String)

/-- A call that writes is up to date: no other client has a write to the place under way, and the
copy has every visitor and every rating, but for the one that the call replaces, of the record that
the client's own writes will leave. -/
def UpToDate (session : Session ι) : Action ι → Prop
  | .visit client =>
    let app := (session.network.client client).app
    ∀ place, app.entry key = some place →
      Places.visitName app.currentUser (app.heap.read place) ∉ (app.heap.read place).visitors →
      session.network.Alone client key ∧
        HasVisitors (app.heap.read place) (session.network.forecast client key) ∧
        ∀ user, HasRating (app.heap.read place) (session.network.forecast client key) user
  | .rate client _ =>
    let app := (session.network.client client).app
    ∀ place, app.entry key = some place →
      session.network.Alone client key ∧
        HasVisitors (app.heap.read place) (session.network.forecast client key) ∧
        ∀ user, user ≠ Places.rateName app.currentUser (app.heap.read place) →
          HasRating (app.heap.read place) (session.network.forecast client key) user
  | .apply _ | .deliver _ => True

variable {key} {uid : ι → String}

/-- The record after an accepted visit holds what was noted before, and the visit. -/
theorem Recorded.visit {session : Session ι} {record : Record} {place : Place} {client : ι}
    {name : String} (hname : name = uid client) (h : Recorded uid session record)
    (hvisitors : HasVisitors place record) (hratings : ∀ user, HasRating place record user)
    (network : Network ι) :
    Recorded uid { session with network, visited := session.visited ++ [client] }
      (record.updateChildValues (Place.dictionaryFromPlace
        { place with visitors := place.visitors ++ [name] })) where
  visited other hother := by
    rw [listsVisitor_updateChildValues]
    rcases List.mem_append.mp hother with hold | hnew
    · exact List.mem_append_left _ (hvisitors _ (h.visited other hold))
    · rw [List.mem_singleton.mp hnew, ← hname]
      exact List.mem_append_right _ List.mem_cons_self
  rated other rating hrated := by
    rw [ratingOf_updateChildValues, hratings _ rating (h.rated other rating hrated)]
    rfl

/-- The record after a rating holds what was noted before, and the rating in place of an earlier one
of the same client. -/
theorem Recorded.rate [DecidableEq ι] {session : Session ι} {record : Record} {place : Place}
    {client : ι} {currentUser : Option String} (huser : currentUser = some (uid client))
    (hinjective : Function.Injective uid) (h : Recorded uid session record)
    (hvisitors : HasVisitors place record)
    (hratings : ∀ user, user ≠ Places.rateName currentUser place → HasRating place record user)
    (network : Network ι) (rating : ℤ) :
    Recorded uid
      { session with network, rated := Function.update session.rated client (some rating) }
      (record.updateChildValues (Place.dictionaryFromPlace
        (Places.rate currentUser place rating))) where
  visited other hother := by
    rw [listsVisitor_updateChildValues]
    exact hvisitors _ (h.visited other hother)
  rated other value hvalue := by
    have hlookup : (Places.rate currentUser place rating).ratings =
        place.ratings.insert (uid client) rating := by
      rw [huser]
      rfl
    rw [ratingOf_updateChildValues, hlookup]
    by_cases hother : other = client
    · subst hother
      simp only [Function.update_self, Option.some.injEq] at hvalue
      rw [Finmap.lookup_insert, hvalue]
      rfl
    · have hne : uid other ≠ uid client := fun heq ↦ hother (hinjective heq)
      simp only [Function.update_of_ne hother] at hvalue
      rw [huser] at hratings
      rw [Finmap.lookup_insert_of_ne _ hne, hratings _ hne value (h.rated other value hvalue)]
      rfl

/-- The invariant: one client is alone with its pending writes, and the record that they will leave
holds everything that was noted. -/
structure Invariant (key : String) (uid : ι → String) (session : Session ι) : Prop where
  signedIn : ∀ client, (session.network.client client).app.currentUser = some (uid client)
  recorded : ∃ owner, session.network.Alone owner key ∧
    Recorded uid session (session.network.forecast owner key)

theorem Invariant.recorded_of_alone {session : Session ι} {client : ι}
    (h : Invariant key uid session) (halone : session.network.Alone client key) :
    Recorded uid session (session.network.forecast client key) := by
  obtain ⟨owner, howner, hrecorded⟩ := h.recorded
  rwa [Network.forecast_eq_of_alone howner halone] at hrecorded

variable [DecidableEq ι] {session next : Session ι} {client : ι} {changed : Client}

theorem signedIn_setClient (h : Invariant key uid session)
    (huser : changed.app.currentUser = some (uid client)) (other : ι) :
    ((session.network.setClient client changed).client other).app.currentUser =
      some (uid other) := by
  by_cases hother : other = client
  · rw [hother, Network.client_setClient_self, huser]
  · rw [Network.client_setClient_of_ne hother, h.signedIn]

/-- A step of a client that adds no write to the place keeps the invariant. -/
theorem Invariant.setClient (h : Invariant key uid session)
    (huser : changed.app.currentUser = some (uid client))
    (hpending : changed.app.pending key = (session.network.client client).app.pending key) :
    Invariant key uid { session with network := session.network.setClient client changed } := by
  obtain ⟨owner, halone, hrecorded⟩ := h.recorded
  refine ⟨signedIn_setClient h huser, owner, fun other hother ↦ ?_, ?_⟩
  · rw [Network.pending_setClient hpending, halone other hother]
  · have hforecast : (session.network.setClient client changed).forecast owner key =
        session.network.forecast owner key := by
      rw [Network.forecast, Network.pending_setClient hpending]
      rfl
    rw [hforecast]
    exact ⟨hrecorded.visited, hrecorded.rated⟩

/-- A call that writes the place keeps the invariant. Assumes: the client is alone, and the record
after the write holds everything that is noted. -/
theorem Invariant.append (h : Invariant key uid session)
    (halone : session.network.Alone client key) {heap : Heap Place} {write : Write}
    (hkey : write.key = key)
    (hchanged : changed.app = { (session.network.client client).app with
      heap := heap
      outbox := (session.network.client client).app.outbox ++ [write] })
    {visited : List ι} {rated : ι → Option ℤ}
    (hrecorded : Recorded uid ⟨session.network.setClient client changed, visited, rated⟩
      ((session.network.forecast client key).updateChildValues write.values)) :
    Invariant key uid ⟨session.network.setClient client changed, visited, rated⟩ := by
  have hpending : changed.app.pending key =
      (session.network.client client).app.pending key ++ [write] := by
    rw [hchanged, App.pending_append _ _ hkey]
  refine ⟨signedIn_setClient h (by rw [hchanged]; exact h.signedIn client), client,
    Network.alone_setClient halone, ?_⟩
  rw [Network.forecast_setClient_append hpending]
  exact hrecorded

/-- The server applies the oldest write of a client: the forecast of the client that is alone stays
what it is. -/
theorem Invariant.commit (h : Invariant key uid session) {write : Write} {rest : List Write}
    (houtbox : (session.network.client client).app.outbox = write :: rest)
    (hchanged : changed.app = { (session.network.client client).app with outbox := rest }) :
    Invariant key uid
      { session with network := (session.network.setClient client changed).commit write } := by
  have hpending : (session.network.client client).app.pending key =
      (if write.key = key then [write] else []) ++ changed.app.pending key := by
    rw [hchanged, App.pending, App.pending, houtbox]
    by_cases hkey : write.key = key <;> simp [hkey]
  have huser : changed.app.currentUser = some (uid client) := by
    rw [hchanged]
    exact h.signedIn client
  by_cases hkey : write.key = key
  · obtain ⟨owner, halone, hrecorded⟩ := h.recorded
    rw [if_pos hkey] at hpending
    have howner : client = owner := by
      by_contra hne
      rw [halone client hne] at hpending
      cases hpending
    subst howner
    refine ⟨signedIn_setClient h huser, client,
      Network.alone_setClient halone, ?_⟩
    have hforecast : ((session.network.setClient client changed).commit write).forecast client key =
        session.network.forecast client key := by
      rw [Network.forecast, Network.forecast, Network.app_commit, Network.client_setClient_self,
        hpending, List.singleton_append, List.foldl_cons, ← hkey, Network.record_commit_self]
      rfl
    rw [hforecast]
    exact ⟨hrecorded.visited, hrecorded.rated⟩
  · rw [if_neg hkey, List.nil_append] at hpending
    obtain ⟨hsigned, owner, halone, hrecorded⟩ := h.setClient huser hpending.symm
    refine ⟨hsigned, owner, halone, ?_⟩
    have hforecast : ((session.network.setClient client changed).commit write).forecast owner key =
        (session.network.setClient client changed).forecast owner key := by
      rw [Network.forecast, Network.app_commit, Network.record_commit_of_ne (Ne.symm hkey)]
      rfl
    rw [hforecast]
    exact ⟨hrecorded.visited, hrecorded.rated⟩

variable (distanceBetween : Point → Point → ℚ) {action : Action ι}

/-- A step whose calls are up to date keeps the invariant. -/
theorem Invariant.step (hinjective : Function.Injective uid) (h : Invariant key uid session)
    (hguard : UpToDate key session action)
    (hstep : session.step distanceBetween key action = some next) : Invariant key uid next := by
  cases action with
  | visit client =>
    obtain ⟨place, hentry, hvisited⟩ := Option.bind_eq_some_iff.mp hstep
    obtain ⟨network, hnetwork, rfl⟩ := Option.map_eq_some_iff.mp hvisited
    obtain rfl := Option.some.inj hnetwork
    by_cases hmem : Places.visitName (session.network.client client).app.currentUser
        ((session.network.client client).app.heap.read place) ∈
        ((session.network.client client).app.heap.read place).visitors
    · rw [App.visit_of_mem hmem]
      exact h.setClient (h.signedIn client) rfl
    · obtain ⟨halone, hvisitors, hratings⟩ := hguard place hentry hmem
      have hname : Places.visitName (session.network.client client).app.currentUser
          ((session.network.client client).app.heap.read place) = uid client := by
        rw [h.signedIn client]
        rfl
      rw [App.visit_of_notMem hmem, Places.visit_of_notMem hmem, if_pos rfl]
      exact h.append halone (App.key_of_entry hentry) rfl
        ((h.recorded_of_alone halone).visit hname hvisitors hratings _)
  | rate client rating =>
    obtain ⟨place, hentry, hrated⟩ := Option.bind_eq_some_iff.mp hstep
    obtain ⟨network, hnetwork, rfl⟩ := Option.map_eq_some_iff.mp hrated
    obtain rfl := Option.some.inj hnetwork
    obtain ⟨halone, hvisitors, hratings⟩ := hguard place hentry
    exact h.append halone (App.key_of_entry hentry) rfl
      ((h.recorded_of_alone halone).rate (h.signedIn client) hinjective hvisitors hratings _ rating)
  | apply client =>
    obtain ⟨network, hnetwork, rfl⟩ := Option.map_eq_some_iff.mp hstep
    obtain ⟨write, hwrite, rfl⟩ := Option.map_eq_some_iff.mp hnetwork
    cases houtbox : (session.network.client client).app.outbox with
    | nil => rw [houtbox] at hwrite; cases hwrite
    | cons head rest =>
      rw [houtbox] at hwrite
      obtain rfl := Option.some.inj hwrite
      exact h.commit houtbox (by rfl)
  | deliver client =>
    obtain ⟨network, hnetwork, rfl⟩ := Option.map_eq_some_iff.mp hstep
    obtain ⟨event, hevent, hhandled⟩ := Option.bind_eq_some_iff.mp hnetwork
    obtain ⟨app, happ, rfl⟩ := Option.map_eq_some_iff.mp hhandled
    obtain ⟨_, _, _, _, _, _, _, rfl⟩ := App.exists_of_handle happ
    exact h.setClient (h.signedIn client) rfl

/-- Assumes: clients signed in with different users, no write to the place under way and nothing
noted yet. In every run whose calls are up to date, once all writes are applied the record lists the
user of every client whose visit was accepted, and maps the user of every client that rated to its
last rating. -/
theorem recorded_of_upToDate (hinjective : Function.Injective uid) {start final : Session ι}
    (hsigned : ∀ client, (start.network.client client).app.currentUser = some (uid client))
    (hidle : ∀ client, (start.network.client client).app.pending key = [])
    (hvisited : start.visited = []) (hrated : start.rated = fun _ ↦ none)
    {actions : List (Action ι)}
    (hguarded : PartialRun.Guarded (Session.step distanceBetween key) (UpToDate key) start actions)
    (hrun : PartialRun.run (Session.step distanceBetween key) start actions = some final)
    (happlied : ∀ client, (final.network.client client).app.outbox = []) :
    Recorded uid final (final.network.record key) := by
  have hnothing (record : Record) : Recorded uid start record :=
    ⟨by simp [hvisited], by simp [hrated]⟩
  cases isEmpty_or_nonempty ι with
  | inl hempty => exact ⟨fun client ↦ hempty.elim client, fun client ↦ hempty.elim client⟩
  | inr hclients =>
    obtain ⟨owner⟩ := hclients
    have hstart : Invariant key uid start :=
      ⟨hsigned, owner, fun other _ ↦ hidle other, hnothing _⟩
    have hfinal : Invariant key uid final :=
      PartialRun.run_invariant
        (fun _ _ _ hstate hguard hstep ↦ hstate.step distanceBetween hinjective hguard hstep)
        hstart hguarded hrun
    have hpending (client : ι) : (final.network.client client).app.pending key = [] := by
      rw [App.pending, happlied client, List.filter_nil]
    have hrecorded := hfinal.recorded_of_alone fun other (_ : other ≠ owner) ↦ hpending other
    rwa [Network.forecast, hpending, List.foldl_nil] at hrecorded

omit [DecidableEq ι] in
/-- A call is up to date when no write to the place is under way and the entry of the client decodes
the record. -/
theorem upToDate_of_decodes {place : Ref} {decoded : Place}
    (hentry : (session.network.client client).app.entry key = some place)
    (hidle : ∀ client, (session.network.client client).app.pending key = [])
    (hdecoded : Place.placeFromDictionary (session.network.record key).snapshot key = some decoded)
    (hsame : ((session.network.client client).app.heap.read place).withoutImages = decoded)
    (rating : ℤ) :
    UpToDate key session (.visit client) ∧ UpToDate key session (.rate client rating) := by
  have hforecast : session.network.forecast client key = session.network.record key := by
    rw [Network.forecast, hidle, List.foldl_nil]
  have hdecodes := Place.decodes_iff.mp hdecoded
  have hvisitors : HasVisitors ((session.network.client client).app.heap.read place)
      (session.network.record key) := fun user huser ↦ by
    rw [listsVisitor_iff (Place.child_of_asStringArray hdecodes.visitors), ← hsame] at huser
    exact huser
  have hratings (user : String) : HasRating ((session.network.client client).app.heap.read place)
      (session.network.record key) user := fun value hvalue ↦ by
    have hlookup := Place.lookup_ratings_of_decodes hdecodes hvalue
    rw [← hsame] at hlookup
    exact hlookup
  have halone : session.network.Alone client key := fun other _ ↦ hidle other
  constructor
  · intro other hother _
    obtain rfl := Option.some.inj (hentry.symm.trans hother)
    exact ⟨halone, hforecast ▸ hvisitors, fun user ↦ hforecast ▸ hratings user⟩
  · intro other hother
    obtain rfl := Option.some.inj (hentry.symm.trans hother)
    exact ⟨halone, hforecast ▸ hvisitors, fun user _ ↦ hforecast ▸ hratings user⟩

/-- The sample network with nothing noted. -/
def sampleSession : Session Bool := ⟨Network.sampleNetwork, [], fun _ ↦ none⟩

/-- The user of each client of the sample network. -/
def sampleUid (first : Bool) : String := if first then "ana" else "boris"

theorem recorded_of_upToDate_sample :
    ∃ final, PartialRun.run (Session.step sampleDistance "boyana") sampleSession
        [.visit true, .apply true] = some final ∧
      Recorded sampleUid final (final.network.record "boyana") := by
  have hruns : (PartialRun.run (Session.step sampleDistance "boyana") sampleSession
      [.visit true, .apply true]).map (fun final ↦
        decide (∀ client, (final.network.client client).app.outbox.length = 0)) = some true := by
    decide +kernel
  obtain ⟨final, hrun, happlied⟩ := Option.map_eq_some_iff.mp hruns
  have hinjective : Function.Injective sampleUid := by decide
  have hentry : sampleApp.entry "boyana" = some 0 := by decide +kernel
  have hdecoded : Place.placeFromDictionary (Network.sampleNetwork.record "boyana").snapshot
      "boyana" = some samplePlace := by
    decide +kernel
  have hidle : ∀ client, (sampleSession.network.client client).app.pending "boyana" = [] :=
    fun _ ↦ rfl
  have hfresh : UpToDate "boyana" sampleSession (.visit true) :=
    (upToDate_of_decodes hentry hidle hdecoded rfl 0).1
  have hguarded : PartialRun.Guarded (Session.step sampleDistance "boyana") (UpToDate "boyana")
      sampleSession [.visit true, .apply true] :=
    PartialRun.guarded_cons_of_forall_mem hfresh (by simp [UpToDate])
  exact ⟨final, hrun, recorded_of_upToDate sampleDistance hinjective (fun _ ↦ rfl) hidle rfl rfl
    hguarded hrun fun client ↦ List.length_eq_zero_iff.mp (of_decide_eq_true happlied client)⟩

/-- Two users visit at once. Both visits are accepted, all writes are applied and all events are
delivered, and the record does not list the first user. -/
theorem recorded_counterexample :
    Function.Injective sampleUid ∧
    Place.placeFromDictionary (Network.sampleNetwork.record "boyana").snapshot "boyana" =
      some samplePlace ∧
    ∃ final, PartialRun.run (Session.step sampleDistance "boyana") sampleSession
        [.visit true, .visit false, .apply true, .apply false,
          .deliver true, .deliver true, .deliver false, .deliver false] = some final ∧
      (∀ client, (final.network.client client).app.outbox = [] ∧
        (final.network.client client).inbox = []) ∧
      ¬ Recorded sampleUid final (final.network.record "boyana") := by
  refine ⟨by decide, by decide +kernel, ?_⟩
  have hruns : (PartialRun.run (Session.step sampleDistance "boyana") sampleSession
      [.visit true, .visit false, .apply true, .apply false,
        .deliver true, .deliver true, .deliver false, .deliver false]).map (fun final ↦
        decide ((∀ client, (final.network.client client).app.outbox.length = 0 ∧
          (final.network.client client).inbox.length = 0) ∧ true ∈ final.visited ∧
          (final.network.record "boyana").listsVisitor "ana" = false)) = some true := by
    decide +kernel
  obtain ⟨final, hrun, hfinal⟩ := Option.map_eq_some_iff.mp hruns
  obtain ⟨hsettled, hvisited, hlost⟩ := of_decide_eq_true hfinal
  refine ⟨final, hrun, fun client ↦ ⟨List.length_eq_zero_iff.mp (hsettled client).1,
    List.length_eq_zero_iff.mp (hsettled client).2⟩, fun hrecorded ↦ ?_⟩
  have hlisted : (final.network.record "boyana").listsVisitor "ana" = true :=
    hrecorded.visited true hvisited
  rw [hlost] at hlisted
  cases hlisted

end Session

end BeenHere
