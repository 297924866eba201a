import BeenHere.Device
import BeenHere.Runtime

/-!
# One user counts once

A user who is signed in is recorded under the same name at every call, so a visit that is already
listed is not listed again, and a rating replaces the one before. A `Tally` is what a copy of a
place says of its users; `CountsOnce` relates two tallies between which one user has visited and
rated any number of times. On one device with no other writer, the user acting at any time, every
copy of a place in a later state counts the user at most once more than some copy at the start
(`countsOnce_of_run`). For a caller who is not signed in every call makes up a new name, and two
fixes add two visitors (`countsOnce_counterexample`).
-/

set_option autoImplicit false
set_option relaxedAutoImplicit false

namespace BeenHere

open Firebase ObjectHeap

/-! ### What a copy of a place says of its users -/

/-- The visitors and the ratings of a place. -/
@[ext] structure Tally where
  visitors : List String
  ratings : Dictionary String ℤ

namespace Tally

/-- A visit of a user. -/
def visit (uid : String) (tally : Tally) : Tally :=
  if uid ∈ tally.visitors then tally else { tally with visitors := tally.visitors ++ [uid] }

/-- A rating of a user. -/
def rate (uid : String) (rating : ℤ) (tally : Tally) : Tally :=
  { tally with ratings := tally.ratings.insert uid rating }

/-- The visitors gain at most the user, and the ratings at most one entry of the user, one of the
ratings submitted. -/
structure CountsOnce (uid : String) (submitted : ℤ → Prop) (before after : Tally) : Prop where
  visitors : after.visitors = before.visitors ∨
    uid ∉ before.visitors ∧ after.visitors = before.visitors ++ [uid]
  ratings : after.ratings = before.ratings ∨
    ∃ rating, submitted rating ∧ after.ratings = before.ratings.insert uid rating

variable {uid : String} {submitted : ℤ → Prop} {tally : Tally}

theorem CountsOnce.refl (tally : Tally) : CountsOnce uid submitted tally tally :=
  ⟨.inl rfl, .inl rfl⟩

theorem countsOnce_visit (tally : Tally) : CountsOnce uid submitted tally (tally.visit uid) := by
  unfold visit
  split_ifs with hmem
  · exact .refl tally
  · exact ⟨.inr ⟨hmem, rfl⟩, .inl rfl⟩

theorem countsOnce_rate {rating : ℤ} (hrating : submitted rating) :
    CountsOnce uid submitted tally (tally.rate uid rating) :=
  ⟨.inl rfl, .inr ⟨rating, hrating, rfl⟩⟩

/-- Counting twice is counting once: the second visit finds the first, and the second rating
replaces the first. -/
theorem CountsOnce.trans {earlier later : ℤ → Prop} {first second third : Tally}
    (hearlier : CountsOnce uid earlier first second) (hlater : CountsOnce uid later second third) :
    CountsOnce uid (fun rating ↦ earlier rating ∨ later rating) first third where
  visitors := by
    rcases hlater.visitors with hsame | ⟨hnot, hnew⟩
    · rw [hsame]
      exact hearlier.visitors
    · rcases hearlier.visitors with hsecond | ⟨_, hsecond⟩
      · rw [hsecond] at hnot hnew
        exact .inr ⟨hnot, hnew⟩
      · rw [hsecond] at hnot
        exact absurd (List.mem_append_right _ List.mem_cons_self) hnot
  ratings := by
    rcases hlater.ratings with hsame | ⟨rating, hrating, hnew⟩
    · rw [hsame]
      exact hearlier.ratings.imp_right fun ⟨rating, hrating, hsecond⟩ ↦
        ⟨rating, .inl hrating, hsecond⟩
    · refine .inr ⟨rating, .inr hrating, ?_⟩
      rcases hearlier.ratings with hsecond | ⟨_, _, hsecond⟩
      · rw [hnew, hsecond]
      · rw [hnew, hsecond, Finmap.insert_insert]

theorem CountsOnce.mono {others : ℤ → Prop} {before after : Tally}
    (h : CountsOnce uid submitted before after)
    (hsubmitted : ∀ rating, submitted rating → others rating) :
    CountsOnce uid others before after :=
  ⟨h.visitors, h.ratings.imp_right fun ⟨rating, hrating, hnew⟩ ↦
    ⟨rating, hsubmitted rating hrating, hnew⟩⟩

/-- A snapshot from which the tally is decoded. -/
structure Read (tally : Tally) (child : Children Value) : Prop where
  visitors : Place.optionalChild (child "visitors") Value.asStringArray [] = some tally.visitors
  ratings : Place.optionalChild (child "ratings") Value.asIntDictionary ∅ = some tally.ratings

end Tally

/-! ### The tally of a place -/

namespace Place

def tally (place : Place) : Tally := ⟨place.visitors, place.ratings⟩

variable {place : Place} {uid : String}

theorem tally_visit : (Places.visit (some uid) place).2.tally = place.tally.visit uid := by
  by_cases hmem : uid ∈ place.visitors
  · rw [Places.visit_of_mem hmem]
    exact (if_pos hmem).symm
  · rw [Places.visit_of_notMem hmem]
    exact (if_neg hmem).symm

theorem tally_rate (rating : ℤ) :
    (Places.rate (some uid) place rating).tally = place.tally.rate uid rating := rfl

/-- A write determines the tally of its place. -/
theorem tally_eq_of_dictionaryFromPlace {other : Place}
    (h : dictionaryFromPlace place = dictionaryFromPlace other) : place.tally = other.tally := by
  have hvisitors : Value.array (strings place.visitors) = .array (strings other.visitors) :=
    Option.some.inj (congrFun h "visitors")
  have hratings : Value.dictionary (integers place.ratings) =
      .dictionary (integers other.ratings) := Option.some.inj (congrFun h "ratings")
  ext1
  · have helements := congrArg stringElements (Value.array.inj hvisitors)
    rw [stringElements_strings, stringElements_strings] at helements
    exact Option.some.inj helements
  · exact stored_integers_injective (congrArg Value.stored hratings)

/-- What is decoded from a record after a write is the tally of the place written. -/
theorem eq_tally_of_read {tally : Tally} {record : Record}
    (h : tally.Read (record.updateChildValues (dictionaryFromPlace place)).snapshot) :
    tally = place.tally := by
  have hchild (name : String) {value : Value}
      (hvalue : dictionaryFromPlace place name = some value) :
      (record.updateChildValues (dictionaryFromPlace place)).snapshot name =
        value.stored.map Node.exported := by
    rw [Record.snapshot, Record.child_updateChildValues_of_some hvalue]
  have hvisitors := h.visitors
  have hratings := h.ratings
  rw [hchild "visitors" rfl, optionalChild_array] at hvisitors
  rw [hchild "ratings" rfl, optionalChild_dictionary] at hratings
  ext1
  · exact (Option.some.inj hvisitors).symm
  · split_ifs at hratings
    exact (Option.some.inj hratings).symm

end Place

/-! ### The copies of an app -/

namespace App

/-- An object of the app, or a place that the app is about to write, has the tally. -/
inductive Holds (app : App) (key : String) (tally : Tally) : Prop
  | object (ref : Ref) (hlive : ref < app.heap.next) (hkey : (app.heap.read ref).key = key)
      (htally : (app.heap.read ref).tally = tally)
  | write (write : Write) (hmem : write ∈ app.outbox) (hkey : write.key = key) (place : Place)
      (hvalues : write.values = Place.dictionaryFromPlace place) (htally : place.tally = tally)

/-- The user is signed in, the entries of the store, the rows of the list pages and the objects of
the detail pages have been allocated, and every write under way encodes a place. -/
structure Counting (uid : String) (app : App) : Prop where
  signedIn : app.currentUser = some uid
  store : app.WellFormed
  rows : ∀ page list, app.listPages page = some list → ∀ ref ∈ list.places, ref < app.heap.next
  details : ∀ page detail, app.detailPages page = some detail → detail.detailPlace < app.heap.next
  encodes : ∀ write ∈ app.outbox, ∃ place, write.values = Place.dictionaryFromPlace place

variable {uid : String} {app next : App} {ref : Ref} {written : Place}

theorem Counting.writeBack (h : app.Counting uid) (hkey : written.key = (app.heap.read ref).key) :
    (app.writeBack ref written).Counting uid := by
  have hstore : (app.writeBack ref written).WellFormed := h.store.of_key rfl rfl
    (app.heap.view_read_write _ Place.key hkey)
  refine ⟨h.signedIn, hstore, h.rows, h.details, fun write hwrite ↦ ?_⟩
  rcases List.mem_append.mp hwrite with hold | hnew
  · exact h.encodes write hold
  · exact ⟨written, by rw [List.mem_singleton.mp hnew]⟩

theorem holds_of_writeBack {key : String} {tally : Tally}
    (hkey : written.key = (app.heap.read ref).key)
    (h : (app.writeBack ref written).Holds key tally) :
    app.Holds key tally ∨ (app.heap.read ref).key = key ∧ written.tally = tally := by
  cases h with
  | object other hlive hother htally =>
    by_cases hsame : other = ref
    · simp only [App.writeBack, hsame, Heap.read_write_self] at hother htally
      exact .inr ⟨hkey ▸ hother, htally⟩
    · simp only [App.writeBack, Heap.read_write_of_ne _ _ hsame] at hother htally
      exact .inl (.object other hlive hother htally)
  | write write hmem hwrite place hvalues htally =>
    rcases List.mem_append.mp hmem with hold | hnew
    · exact .inl (.write write hold hwrite place hvalues htally)
    · rw [List.mem_singleton.mp hnew] at hwrite hvalues
      exact .inr ⟨hkey ▸ hwrite, (Place.tally_eq_of_dictionaryFromPlace hvalues).trans htally⟩

/-- What visits do: every tally held afterwards counts the user at most once more than one held
before. -/
structure Visits (uid : String) (before after : App) : Prop where
  next : after.heap.next = before.heap.next
  counting : after.Counting uid
  holds : ∀ key tally, after.Holds key tally →
    ∃ old, before.Holds key old ∧ Tally.CountsOnce uid (fun _ ↦ False) old tally

theorem Counting.visits_refl (h : app.Counting uid) : Visits uid app app :=
  ⟨rfl, h, fun _ tally hholds ↦ ⟨tally, hholds, .refl tally⟩⟩

theorem Visits.trans {first second third : App} (hearlier : Visits uid first second)
    (hlater : Visits uid second third) : Visits uid first third := by
  refine ⟨hlater.next.trans hearlier.next, hlater.counting, fun key tally hholds ↦ ?_⟩
  obtain ⟨middle, hmiddle, hlast⟩ := hlater.holds key tally hholds
  obtain ⟨old, hold, hmost⟩ := hearlier.holds key middle hmiddle
  exact ⟨old, hold, (hmost.trans hlast).mono fun _ hnone ↦ hnone.elim id id⟩

theorem Counting.visit (h : app.Counting uid) (hlive : ref < app.heap.next) :
    Visits uid app (app.visit ref).2 := by
  refine visit_rule (Visits uid app) h.visits_refl fun _ ↦
    ⟨rfl, h.writeBack (Places.key_visit ..), fun key tally hholds ↦ ?_⟩
  rcases holds_of_writeBack (Places.key_visit ..) hholds with hold | ⟨hkey, rfl⟩
  · exact ⟨tally, hold, .refl tally⟩
  · rw [h.signedIn, Place.tally_visit]
    exact ⟨_, .object ref hlive hkey rfl, Tally.countsOnce_visit _⟩

theorem Counting.locationUpdated (h : app.Counting uid) (distanceBetween : Point → Point → ℚ)
    (view : Locator) (fix : Fix) :
    Visits uid app (locationUpdated distanceBetween app view fix).1 :=
  locationUpdated_app distanceBetween (Visits uid app)
    (fun _ hother place hplace _ ↦ hother.trans
      (hother.counting.visit (hother.next ▸ h.store.live place hplace)))
    h.visits_refl view

theorem Counting.rate (h : app.Counting uid) (rating : ℤ) : (app.rate ref rating).Counting uid := by
  rw [rate_eq]
  exact h.writeBack rfl

/-- Opening a page, when the object of the page has been allocated. -/
theorem Counting.openDetail (h : app.Counting uid) {page : PageId} {row : ℕ}
    (hopened : app.openDetail page row = some next) : next.Counting uid := by
  obtain ⟨list, place, heap, requests, hlist, hrow, hsame, _, rfl⟩ := exists_of_openDetail hopened
  have hplace := h.rows page list hlist place (List.mem_of_getElem? hrow)
  have hstore := h.store.withHeap hsame
  refine ⟨h.signedIn, ⟨hstore.live, hstore.keys⟩, fun other list hlist ref href ↦ ?_,
    fun other detail hdetail ↦ ?_, h.encodes⟩
  · exact hsame.1 ▸ h.rows other list hlist ref href
  · rw [hsame.1]
    by_cases hother : other = app.nextPage
    · simp only [hother, Function.update_self, Option.some.injEq] at hdetail
      rw [← hdetail]
      exact hplace
    · simp only [Function.update_of_ne hother] at hdetail
      exact h.details other detail hdetail

theorem Counting.closeDetail (h : app.Counting uid) (page : PageId) :
    (app.closeDetail page).Counting uid := by
  refine ⟨h.signedIn, ⟨h.store.live, h.store.keys⟩, h.rows, fun other detail hdetail ↦ ?_,
    h.encodes⟩
  by_cases hother : other = page
  · simp [App.closeDetail, hother] at hdetail
  · simp only [App.closeDetail, Function.update_of_ne hother] at hdetail
    exact h.details other detail hdetail

theorem Counting.handle (h : app.Counting uid) {event : Event}
    (hhandled : app.handle event = some next) : next.Counting uid := by
  obtain ⟨_, newPlace, hobserved⟩ := observed_of_handle h.store hhandled
  have hstore := h.store.handle hhandled
  have hgrow : app.heap.next ≤ next.heap.next := by
    rw [hobserved.heap]
    exact Nat.le_succ _
  obtain ⟨_, _, places, requests, listPages, _, _, hfinal⟩ := exists_of_handle hhandled
  refine ⟨by rw [hfinal]; exact h.signedIn, hstore, fun page list hlist ref href ↦ ?_,
    fun page detail hdetail ↦ ?_, by rw [hfinal]; exact h.encodes⟩
  · rcases hobserved.pagesShow page list hlist ref href with hmem | ⟨old, hold, hmem⟩
    · exact hstore.live ref hmem
    · exact (h.rows page old hold ref hmem).trans_le hgrow
  · rw [hfinal] at hdetail
    exact (h.details page detail hdetail).trans_le hgrow

end App

/-! ### The copies of a device -/

namespace Device

/-- A copy on the device, the snapshot of an event or the record of the node has the tally. -/
inductive Holds (device : Device) (key : String) (tally : Tally) : Prop
  | app (h : device.app.Holds key tally)
  | event (event : Event) (hmem : event ∈ device.inbox) (hkey : event.key = key)
      (hread : tally.Read event.child)
  | record (record : Record) (hrecord : device.network.database key = some record)
      (hread : tally.Read record.snapshot)

/-- The action is a rating of a place through a detail page. -/
def RatesPlace (key : String) (rating : ℤ) (device : Device) : Action → Prop
  | .rate page value => value = rating ∧ ∃ detail, device.app.detailPages page = some detail ∧
    (device.app.heap.read detail.detailPlace).key = key
  | _ => False

/-- The rating of a place is submitted in a run. -/
def Submitted (distanceBetween : Point → Point → ℚ) (uid : String) (start : Device)
    (actions : List Action) (key : String) (rating : ℤ) : Prop :=
  PartialRun.Occurs (anyStep distanceBetween uid) (RatesPlace key rating) start actions

variable {uid : String} {device next : Device} {key : String} {tally : Tally}

theorem Browses.holds (h : Browses device next) (hholds : next.app.Holds key tally) :
    device.app.Holds key tally := by
  cases hholds with
  | object ref hlive hkey htally =>
    have hsame := congrArg Place.tally (h.same ref)
    exact .object ref (h.allocated ▸ hlive) (h.key ref ▸ hkey) (hsame.symm.trans htally)
  | write write hmem hkey place hvalues htally =>
    exact .write write (h.outbox ▸ hmem) hkey place hvalues htally

/-- What is held after an action of the user. Assumes: every tally that the app holds afterwards
comes from one that it has held. -/
theorem Stays.countsOnce {submitted : ℤ → Prop} (hstays : Stays device next)
    (happ : next.app.Holds key tally → ∃ before, device.app.Holds key before ∧
      Tally.CountsOnce uid submitted before tally)
    (h : next.Holds key tally) :
    ∃ before, device.Holds key before ∧ Tally.CountsOnce uid submitted before tally := by
  cases h with
  | app hholds =>
    obtain ⟨before, hbefore, hcounts⟩ := happ hholds
    exact ⟨before, .app hbefore, hcounts⟩
  | event event hmem hkey hread =>
    exact ⟨tally, .event event (hstays.inbox ▸ hmem) hkey hread, .refl tally⟩
  | record record hrecord hread =>
    exact ⟨tally, .record record (hstays.database ▸ hrecord) hread, .refl tally⟩

/-- The record and the event of a write that is applied have the tally of the place written. -/
theorem Applies.holds {write : Write} {rest : List Write}
    (happlies : Applies uid device next write rest) (hcounting : device.app.Counting uid)
    (h : next.Holds key tally) : device.Holds key tally := by
  obtain ⟨place, hvalues⟩ := hcounting.encodes write happlies.write_mem
  have hwritten (hkey : key = write.key)
      (hread : tally.Read (next.network.record write.key).snapshot) : device.Holds key tally := by
    rw [happlies.record_self, hvalues] at hread
    exact .app (.write write happlies.write_mem hkey.symm place hvalues
      (Place.eq_tally_of_read hread).symm)
  cases h with
  | app hholds =>
    rw [happlies.app] at hholds
    cases hholds with
    | object ref hlive hkey htally => exact .app (.object ref hlive hkey htally)
    | write other hmem hkey place hvalues htally =>
      exact .app (.write other (happlies.rest_subset hmem) hkey place hvalues htally)
  | event event hmem hkey hread =>
    rw [happlies.inbox] at hmem
    rcases List.mem_append.mp hmem with hold | hnew
    · exact .event event hold hkey hread
    · rw [List.mem_singleton.mp hnew] at hkey hread
      exact hwritten hkey.symm hread
  | record record hrecord hread =>
    by_cases hkey : key = write.key
    · have hsame : next.network.record write.key = record := by
        rw [Network.record, ← hkey, hrecord, Option.getD_some]
      exact hwritten hkey (hsame ▸ hread)
    · rw [happlies.database, Function.update_of_ne hkey] at hrecord
      exact .record record hrecord hread

/-- The object that an observer makes of a snapshot has its tally. -/
theorem Delivers.holds {event : Event} {rest : List Event}
    (hdelivers : Delivers device next event rest) (h : next.Holds key tally) :
    device.Holds key tally := by
  obtain ⟨decoded, newPlace, places, requests, listPages, hdecoded, hsame, hfinal⟩ :=
    App.exists_of_handle hdelivers.app
  have hdecodes := Place.decodes_iff.mp hdecoded
  cases h with
  | app hholds =>
    rw [hfinal] at hholds
    cases hholds with
    | object ref hlive hkey htally =>
      by_cases href : ref = device.app.heap.next
      · simp only [href, Heap.read_alloc_next] at hkey htally
        have hnewKey := Place.key_eq_of_withoutImages hsame
        have hnewTally := congrArg Place.tally hsame
        have htallyDecoded : decoded.tally = tally := hnewTally.symm.trans htally
        refine .event event hdelivers.event_mem
          ((hdecodes.key.symm.trans hnewKey.symm).trans hkey) ?_
        rw [← htallyDecoded]
        exact ⟨hdecodes.visitors, hdecodes.ratings⟩
      · simp only [Heap.read_alloc_of_ne _ _ href] at hkey htally
        have hold : ref < device.app.heap.next :=
          lt_of_le_of_ne (Nat.lt_succ_iff.mp hlive) href
        exact .app (.object ref hold hkey htally)
    | write write hmem hkey place hvalues htally =>
      exact .app (.write write hmem hkey place hvalues htally)
  | event other hmem hkey hread =>
    rw [hdelivers.inbox] at hmem
    exact .event other (hdelivers.rest_subset hmem) hkey hread
  | record record hrecord hread => exact .record record (hdelivers.database ▸ hrecord) hread

variable (distanceBetween : Point → Point → ℚ) {action : Action}

theorem counting_of_anyStep (h : device.app.Counting uid)
    (hstep : device.anyStep distanceBetween uid action = some next) : next.app.Counting uid := by
  have hmoves := moves_of_anyStep distanceBetween hstep
  cases action with
  | openDetail =>
    obtain ⟨app, happ, rfl⟩ := Option.map_eq_some_iff.mp hstep
    rw [app_setApp]
    exact h.openDetail happ
  | closeDetail page =>
    obtain rfl := Option.some.inj hstep
    rw [app_setApp]
    exact h.closeDetail page
  | rate page rating =>
    obtain ⟨detail, _, hrates⟩ := hmoves
    rw [hrates.app]
    exact h.rate rating
  | locate fix =>
    obtain ⟨view, happ⟩ := hmoves.app
    rw [happ]
    exact (h.locationUpdated distanceBetween view fix).counting
  | apply =>
    obtain ⟨write, rest, happlies⟩ := hmoves
    rw [happlies.app]
    exact ⟨h.signedIn, ⟨h.store.live, h.store.keys⟩, h.rows, h.details,
      fun other hother ↦ h.encodes other (happlies.rest_subset hother)⟩
  | deliver =>
    obtain ⟨event, rest, hdelivers⟩ := hmoves
    exact h.handle hdelivers.app

/-- The step lemma. A tally that a copy has after a step counts the user at most once more than one
that a copy had before. -/
theorem countsOnce_of_anyStep (h : device.app.Counting uid)
    (hstep : device.anyStep distanceBetween uid action = some next)
    (hholds : next.Holds key tally) : ∃ before, device.Holds key before ∧
      Tally.CountsOnce uid (fun rating ↦ RatesPlace key rating device action) before tally := by
  have hmoves := moves_of_anyStep distanceBetween hstep
  cases action with
  | openDetail | closeDetail =>
    have hbrowses : Browses device next := hmoves
    exact hbrowses.countsOnce (fun happ ↦ ⟨tally, hbrowses.holds happ, .refl tally⟩) hholds
  | rate page rating =>
    obtain ⟨detail, hdetail, hrates⟩ := hmoves
    refine hrates.countsOnce (fun happ ↦ ?_) hholds
    rw [hrates.app, App.rate_eq, h.signedIn] at happ
    have hkeyRated : (Places.rate (some uid) (device.app.heap.read detail.detailPlace) rating).key =
        (device.app.heap.read detail.detailPlace).key := rfl
    rcases App.holds_of_writeBack hkeyRated happ with hold | ⟨hkey, rfl⟩
    · exact ⟨tally, hold, .refl tally⟩
    · rw [Place.tally_rate]
      exact ⟨_, .object detail.detailPlace (h.details page detail hdetail) hkey rfl,
        Tally.countsOnce_rate ⟨rfl, detail, hdetail, hkey⟩⟩
  | locate fix =>
    refine hmoves.countsOnce (fun happ ↦ ?_) hholds
    obtain ⟨view, hnext⟩ := hmoves.app
    rw [hnext] at happ
    obtain ⟨before, hbefore, hcounts⟩ :=
      (h.locationUpdated distanceBetween view fix).holds key tally happ
    exact ⟨before, hbefore, hcounts.mono fun _ hnone ↦ hnone.elim⟩
  | apply =>
    obtain ⟨write, rest, happlies⟩ := hmoves
    exact ⟨tally, happlies.holds h hholds, .refl tally⟩
  | deliver =>
    obtain ⟨event, rest, hdelivers⟩ := hmoves
    exact ⟨tally, hdelivers.holds hholds, .refl tally⟩

theorem countsOnce_of_holds {start final : Device} {actions : List Action}
    (hstart : start.app.Counting uid)
    (hrun : PartialRun.run (anyStep distanceBetween uid) start actions = some final)
    (hholds : final.Holds key tally) : ∃ before, start.Holds key before ∧
      Tally.CountsOnce uid (Submitted distanceBetween uid start actions key) before tally := by
  induction actions generalizing start with
  | nil =>
    rw [PartialRun.run_nil, Option.some.injEq] at hrun
    exact ⟨tally, hrun ▸ hholds, .refl tally⟩
  | cons action rest ih =>
    obtain ⟨next, hstep, hrest⟩ := PartialRun.run_cons_eq_some.mp hrun
    obtain ⟨middle, hmiddle, hlater⟩ := ih (counting_of_anyStep distanceBetween hstart hstep) hrest
    obtain ⟨before, hbefore, hearlier⟩ :=
      countsOnce_of_anyStep distanceBetween hstart hstep hmiddle
    exact ⟨before, hbefore, (hearlier.trans hlater).mono fun _ ↦
      (PartialRun.occurs_cons_of_step hstep).mpr⟩

theorem counting_of_run {start final : Device} {actions : List Action}
    (hstart : start.app.Counting uid)
    (hrun : PartialRun.run (anyStep distanceBetween uid) start actions = some final) :
    final.app.Counting uid := by
  have hkeep (state : Device) (action : Action) (next : Device) (h : state.app.Counting uid)
      (_ : True) (hstep : state.anyStep distanceBetween uid action = some next) :
      next.app.Counting uid := counting_of_anyStep distanceBetween h hstep
  exact PartialRun.run_invariant hkeep hstart
    (PartialRun.guarded_of_forall_mem (fun _ _ _ ↦ trivial) start) hrun

/-- When nothing is under way, the record and the entry of a rated place have the last rating. -/
theorem Echoing.last_rating (h : Echoing uid device) (hquiet : device.Quiet) {rating : ℤ}
    (hrated : device.rated key = some rating) :
    (device.network.record key).ratingOf uid = some (.number rating) ∧
      ∀ ref ∈ device.app.places, (device.app.heap.read ref).key = key →
        (device.app.heap.read ref).ratings.lookup uid = some rating := by
  have hrecord := (h.rates key rating hrated).2 (by simp [hquiet.1])
  exact ⟨hrecord, fun ref href hkey ↦ h.lookup_ratings hquiet href (by rw [hkey]; exact hrecord)⟩

theorem echoing_of_run {start final : Device} {actions : List Action} (hstart : Echoing uid start)
    (hrun : PartialRun.run (step distanceBetween uid) start actions = some final) :
    Echoing uid final :=
  PartialRun.run_invariant_on (fun _ _ _ _ h hstep ↦
    h.step distanceBetween (moves_of_step _ hstep).1 (moves_of_step _ hstep).2) hstart hrun

/-- One user counts once. Assumes: one device with no other writer, whose user is signed in, and any
run of fixes, of ratings through detail pages and of echoes.

Every copy of a place that the device, the database or anything under way holds after the run has
the visitors of some copy held at the start, or these and the user once, and the ratings of that
copy, or these with one entry of the user, a rating submitted for the place. A rating replaces the
one before: the object of the page and the write of its place have the ratings of the start with the
new rating as the only entry of the user. If the user has acted only when nothing was under way, the
record and the entry of the store have the last rating whenever nothing is under way. -/
theorem countsOnce_of_run {start final : Device} (hstart : start.app.Counting uid)
    {actions : List Action}
    (hrun : PartialRun.run (anyStep distanceBetween uid) start actions = some final) :
    (∀ key tally, final.Holds key tally → ∃ before, start.Holds key before ∧
      Tally.CountsOnce uid (Submitted distanceBetween uid start actions key) before tally) ∧
    (∀ page rating next, final.anyStep distanceBetween uid (.rate page rating) = some next →
      ∃ detail before, final.app.detailPages page = some detail ∧
        let rated := next.app.heap.read detail.detailPlace
        start.Holds rated.key before ∧ rated.ratings = before.ratings.insert uid rating ∧
        next.app.outbox =
          final.app.outbox ++ [⟨rated.key, Place.dictionaryFromPlace rated⟩]) ∧
    (PartialRun.run (step distanceBetween uid) start actions = some final →
      start.Quiet → start.rated = (fun _ ↦ none) →
      (∀ ref ∈ start.app.places,
        Place.placeFromDictionary (start.network.record (start.app.heap.read ref).key).snapshot
          (start.app.heap.read ref).key = some (start.app.heap.read ref).withoutImages) →
      final.Quiet → ∀ key rating, final.rated key = some rating →
        (final.network.record key).ratingOf uid = some (.number rating) ∧
        ∀ ref ∈ final.app.places, (final.app.heap.read ref).key = key →
          (final.app.heap.read ref).ratings.lookup uid = some rating) := by
  refine ⟨fun key tally ↦ countsOnce_of_holds distanceBetween hstart hrun,
    fun page rating next hstep ↦ ?_, fun hquietRun hquiet hrated hmirror hfinal key rating ↦ ?_⟩
  · have hcounting := counting_of_run distanceBetween hstart hrun
    obtain ⟨detail, hdetail, hrates⟩ := moves_of_anyStep distanceBetween hstep
    obtain ⟨before, hbefore, hcounts⟩ := countsOnce_of_holds distanceBetween hstart hrun
      (.app (.object detail.detailPlace (hcounting.details page detail hdetail) rfl rfl))
    have hread : next.app.heap.read detail.detailPlace =
        Places.rate (some uid) (final.app.heap.read detail.detailPlace) rating := by
      rw [hrates.app, ← hcounting.signedIn]
      exact Heap.read_write_self ..
    refine ⟨detail, before, hdetail, hread ▸ hbefore, ?_, ?_⟩
    · rw [hread]
      rcases hcounts.ratings with hsame | ⟨_, _, hsame⟩
      · exact congrArg (Finmap.insert uid rating) hsame
      · exact (congrArg (Finmap.insert uid rating) hsame).trans (Finmap.insert_insert _)
    · rw [hread, hrates.app, App.rate, hcounting.signedIn]
  · have hechoing := echoing_of_run distanceBetween
      (echoing_of_quiet hstart.signedIn hquiet hstart.store hmirror hrated) hquietRun
    exact hechoing.last_rating hfinal

theorem counting_sampleDevice : sampleDevice.app.Counting "ana" where
  signedIn := rfl
  store := ⟨by decide, by decide⟩
  rows page list hlist ref href := by
    by_cases hpage : page = 0
    · obtain rfl := Option.some.inj (hpage ▸ hlist)
      rw [List.mem_singleton.mp href]
      decide
    · have hnone : sampleDevice.app.listPages page = none :=
        Function.update_of_ne hpage _ fun _ ↦ none
      rw [hnone] at hlist
      cases hlist
  details page detail hdetail := by
    by_cases hpage : page = 1
    · obtain rfl := Option.some.inj (hpage ▸ hdetail)
      decide
    · have hnone : sampleDevice.app.detailPages page = none :=
        Function.update_of_ne hpage _ fun _ ↦ none
      rw [hnone] at hdetail
      cases hdetail
  encodes _ hwrite := by cases hwrite

/-- Rate a place, visit it and rate it again, each echo delivered before the next action. -/
def sampleVisits : List Action :=
  [.rate 1 4, .apply, .deliver, .locate ⟨⟨42, 23⟩, none⟩, .apply, .deliver, .rate 1 5, .apply,
    .deliver]

theorem countsOnce_of_run_sample :
    ∃ final, PartialRun.run (anyStep sampleDistance "ana") sampleDevice sampleVisits = some final ∧
      (∀ tally, final.Holds "boyana" tally → ∃ before, sampleDevice.Holds "boyana" before ∧
        Tally.CountsOnce "ana"
          (Submitted sampleDistance "ana" sampleDevice sampleVisits "boyana") before tally) ∧
      (∃ next, final.anyStep sampleDistance "ana" (.rate 1 3) = some next ∧
        ∃ before : Tally,
          (next.app.heap.read 0).ratings = before.ratings.insert "ana" 3) ∧
      (final.network.record "boyana").ratingOf "ana" = some (.number 5) := by
  have hruns : (PartialRun.run (step sampleDistance "ana") sampleDevice sampleVisits).map
      (fun final ↦ (final.app.outbox.isEmpty, final.inbox.isEmpty, final.rated "boyana",
        (final.app.detailPages 1).map DetailPage.detailPlace)) =
          some (true, true, some 5, some 0) := by
    decide +kernel
  obtain ⟨final, hrun, hfinal⟩ := Option.map_eq_some_iff.mp hruns
  simp only [Prod.mk.injEq, List.isEmpty_iff] at hfinal
  obtain ⟨houtbox, hinbox, hrated, hpage⟩ := hfinal
  have hany := ((PartialRun.run_eq_some_iff_guarded
    fun _ _ _ ↦ step_eq_some_iff sampleDistance "ana").mp hrun).2
  obtain ⟨hcounts, hreplaces, hlast⟩ :=
    countsOnce_of_run sampleDistance counting_sampleDevice hany
  obtain ⟨detail, hdetail, hplace⟩ := Option.map_eq_some_iff.mp hpage
  obtain ⟨next, hnext⟩ : ∃ next,
      final.anyStep sampleDistance "ana" (.rate 1 3) = some next := by
    simp [anyStep, hdetail, Network.step]
  obtain ⟨rated, before, hratedPage, _, hratings, _⟩ := hreplaces 1 3 next hnext
  obtain rfl := Option.some.inj (hdetail.symm.trans hratedPage)
  rw [hplace] at hratings
  exact ⟨final, hany, hcounts "boyana", ⟨next, hnext, before, hratings⟩,
    (hlast hrun ⟨rfl, rfl⟩ rfl decodes_sampleDevice ⟨houtbox, hinbox⟩ "boyana" 5 hrated).1⟩

/-- `sampleDevice` when nobody is signed in. -/
def sampleStranger : Device :=
  sampleDevice.setApp { sampleDevice.app with currentUser := none }

/-- Nobody is signed in. Two fixes at a place, the echo delivered in between, add two visitors, and
two ratings through one page add two entries. -/
theorem countsOnce_counterexample :
    sampleStranger.app.currentUser = none ∧
    (sampleStranger.app.places.map fun ref ↦ (sampleStranger.app.heap.read ref).visitors) = [[]] ∧
    ((PartialRun.run (step sampleDistance "ana") sampleStranger
        [.locate ⟨⟨42, 23⟩, none⟩, .apply, .deliver,
          .locate ⟨⟨42, 23⟩, none⟩, .apply, .deliver]).map fun device ↦
      device.app.places.map fun ref ↦ (device.app.heap.read ref).visitors) =
        some [["Anonymous1", "Anonymous2"]] ∧
    ((PartialRun.run (anyStep sampleDistance "ana") sampleStranger
        [.rate 1 4, .apply, .rate 1 3, .apply]).map fun device ↦
      (["1", "2"].map (sampleStranger.network.record "boyana").ratingOf,
        ["1", "2"].map (device.network.record "boyana").ratingOf)) =
        some ([none, none], [some (.number 4), some (.number 3)]) := by
  refine ⟨rfl, by decide +kernel, by decide +kernel, by decide +kernel⟩

end Device

end BeenHere
