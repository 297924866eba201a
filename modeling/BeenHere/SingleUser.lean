import BeenHere.Device

/-!
# One user, the only writer

One device visits through the locator and rates through open detail pages. Every echo is delivered
before the next action of the user, so the entries of the store decode the records whenever the user
acts. A detail page keeps the object it was opened with, which the echo of the first rating replaces
in the store. A later visit changes the entry of the store and not the object of the page, and a
second rating through the page writes the visit away (`kept_counterexample`). The visits and the
ratings of the user are kept throughout a run exactly when no rating goes through an object that
misses a visit which the record has (`kept_iff`); ratings alone are never lost.
-/

set_option autoImplicit false
set_option relaxedAutoImplicit false

namespace BeenHere

open Firebase ObjectHeap

namespace Device

section Kept

variable (uid : String)

/-- A rating goes through an object that lists the user if the record does. -/
def Fresh (device : Device) : Action → Prop
  | .rate page _ => ∀ detail, device.app.detailPages page = some detail →
    let place := device.app.heap.read detail.detailPlace
    (device.network.record place.key).listsVisitor uid = true → uid ∈ place.visitors
  | _ => True

/-- The record lists the user wherever it has done so before, and once the writes are applied it has
the last rating of the user for every place. -/
def Kept (device : Device) : Prop :=
  (∀ key, device.listed key = true → (device.network.record key).listsVisitor uid = true) ∧
    (device.app.outbox = [] → ∀ key rating, device.rated key = some rating →
      (device.network.record key).ratingOf uid = some (.number rating))

end Kept

/-! ### The invariant -/

/-- The invariant. Besides the ratings, what is listed is what the records list, a pending write
keeps it, and several writes are pending only if they are visits. -/
structure Invariant (uid : String) (device : Device) : Prop extends Echoing uid device where
  listed : ∀ key, device.listed key = (device.network.record key).listsVisitor uid
  lists : ∀ write ∈ device.app.outbox, (device.network.record write.key).listsVisitor uid = true →
    write.Lists uid
  single : device.app.outbox.length ≤ 1 ∨ ∀ write ∈ device.app.outbox, write.Lists uid

variable {uid : String} {device next : Device}

/-- An action of the user leaves what is listed and what the records list. -/
theorem Invariant.listed_of_stays (h : Invariant uid device) (hstays : Stays device next)
    (key : String) : next.listed key = (next.network.record key).listsVisitor uid := by
  rw [hstays.listed, hstays.record, h.listed]

theorem Invariant.browse (h : Invariant uid device) (hquiet : device.Quiet)
    (hbrowses : Browses device next) : Invariant uid next := by
  have houtbox := hbrowses.outbox.trans hquiet.1
  exact ⟨h.toEchoing.browse hquiet hbrowses, h.listed_of_stays hbrowses.toStays,
    by simp [houtbox], by simp [houtbox]⟩

/-- The visits of the locator list the user. -/
theorem Invariant.locate {distanceBetween : Point → Point → ℚ} {fix : Fix}
    (h : Invariant uid device) (hquiet : device.Quiet)
    (hlocates : Locates distanceBetween device next fix) : Invariant uid next := by
  have hwrites := (hlocates.visiting h.signedIn hquiet).writes
  exact ⟨h.toEchoing.locate hquiet hlocates, h.listed_of_stays hlocates.toStays,
    fun write hwrite _ ↦ (hwrites write hwrite).1,
    .inr fun write hwrite ↦ (hwrites write hwrite).1⟩

/-- A rating through an object that lists the user if the record does keeps the invariant. -/
theorem Invariant.rate (h : Invariant uid device) (hquiet : device.Quiet) {ref : Ref} {rating : ℤ}
    (hfresh : (device.network.record (device.app.heap.read ref).key).listsVisitor uid = true →
      uid ∈ (device.app.heap.read ref).visitors)
    (hrates : Rates device next ref rating) : Invariant uid next := by
  obtain ⟨rated, hplace⟩ : ∃ rated,
      rated = Places.rate device.app.currentUser (device.app.heap.read ref) rating := ⟨_, rfl⟩
  have houtbox : next.app.outbox = [⟨rated.key, Place.dictionaryFromPlace rated⟩] := by
    rw [hrates.app, App.rate, hquiet.1, hplace]
    rfl
  have hlists : (device.network.record rated.key).listsVisitor uid = true →
      uid ∈ rated.visitors := by
    rw [hplace]
    exact hfresh
  refine ⟨h.toEchoing.rate hquiet hrates, h.listed_of_stays hrates.toStays, ?_,
    by simp [houtbox]⟩
  intro write hwrite hlisted record
  rw [houtbox, List.mem_singleton] at hwrite
  rw [hwrite, hrates.record] at hlisted
  rw [hwrite, listsVisitor_updateChildValues]
  exact hlists hlisted

theorem Invariant.apply (h : Invariant uid device) {write : Write} {rest : List Write}
    (happlies : Applies uid device next write rest) : Invariant uid next := by
  have houtbox : next.app.outbox = rest := by rw [happlies.app]
  -- what is listed stays listed, and what the write lists is listed by every later write
  have hkeeps (key : String) (hlists : (device.network.record key).listsVisitor uid = true) :
      (next.network.record key).listsVisitor uid = true := by
    by_cases hkey : key = write.key
    · rw [hkey, happlies.record_self]
      exact h.lists write happlies.write_mem (hkey ▸ hlists) _
    · rw [happlies.record_of_ne hkey]
      exact hlists
  have hsingle : rest = [] ∨ ∀ other ∈ rest, other.Lists uid := by
    refine h.single.imp (fun hlength ↦ ?_) fun hall other hwrite ↦
      hall other (happlies.rest_subset hwrite)
    rw [happlies.outbox, List.length_cons] at hlength
    exact List.length_eq_zero_iff.mp (by omega)
  refine ⟨h.toEchoing.apply happlies, ?_, ?_, ?_⟩
  · intro key
    simp only [happlies.listed, h.listed]
    cases hold : (device.network.record key).listsVisitor uid with
    | false => rfl
    | true => rw [hkeeps key hold]; rfl
  · intro other hwrite _
    rw [houtbox] at hwrite
    rcases hsingle with hnil | hall
    · rw [hnil] at hwrite
      cases hwrite
    · exact hall other hwrite
  · rw [houtbox]
    exact hsingle.imp (fun hnil ↦ by simp [hnil]) id

theorem Invariant.deliver (h : Invariant uid device) {event : Event} {rest : List Event}
    (hdelivers : Delivers device next event rest) : Invariant uid next := by
  have houtbox : next.app.outbox = device.app.outbox := by
    obtain ⟨_, _, _, _, _, _, _, hfinal⟩ := App.exists_of_handle hdelivers.app
    rw [hfinal]
  refine ⟨h.toEchoing.deliver hdelivers, ?_, ?_, ?_⟩
  · intro key
    rw [hdelivers.listed, hdelivers.record, h.listed]
  · intro write hwrite hlists
    rw [houtbox] at hwrite
    rw [hdelivers.record] at hlists
    exact h.lists write hwrite hlists
  · rw [houtbox]
    exact h.single

/-! ### Runs -/

variable (distanceBetween : Point → Point → ℚ) {action : Action}

theorem Invariant.step (h : Invariant uid device) (hfresh : Fresh uid device action)
    (hstep : device.step distanceBetween uid action = some next) : Invariant uid next := by
  obtain ⟨hquiet, hmoves⟩ := moves_of_step distanceBetween hstep
  cases action with
  | openDetail | closeDetail => exact h.browse hquiet hmoves
  | rate =>
    obtain ⟨detail, hdetail, hrates⟩ := hmoves
    exact h.rate hquiet (hfresh detail hdetail) hrates
  | locate => exact h.locate hquiet hmoves
  | apply =>
    obtain ⟨_, _, happlies⟩ := hmoves
    exact h.apply happlies
  | deliver =>
    obtain ⟨_, _, hdelivers⟩ := hmoves
    exact h.deliver hdelivers

theorem Invariant.kept (h : Invariant uid device) : Kept uid device :=
  ⟨fun key hlisted ↦ h.listed key ▸ hlisted, fun hempty key rating hrated ↦
    (h.rates key rating hrated).2 (by simp [hempty])⟩

/-- The next step after a rating that misses a visit of the record applies it. -/
theorem not_kept_of_pending {write : Write} (houtbox : device.app.outbox = [write])
    (hinbox : device.inbox = []) (hlisted : device.listed write.key = true)
    (hmissing : ∀ record : Record,
      (record.updateChildValues write.values).listsVisitor uid = false)
    (hstep : device.step distanceBetween uid action = some next) : ¬ Kept uid next := by
  obtain ⟨hquiet, hmoves⟩ := moves_of_step distanceBetween hstep
  cases action with
  | openDetail | closeDetail | rate | locate =>
    have hempty := hquiet.1
    rw [houtbox] at hempty
    cases hempty
  | apply =>
    obtain ⟨head, rest, happlies⟩ := hmoves
    have hwrite := happlies.outbox
    rw [houtbox, List.cons.injEq] at hwrite
    obtain rfl := hwrite.1
    intro hkept
    have hlists := hkept.1 write.key (by simp [happlies.listed, hlisted])
    rw [happlies.record_self, hmissing] at hlists
    cases hlists
  | deliver =>
    obtain ⟨event, rest, hdelivers⟩ := hmoves
    have hnone := hdelivers.pending
    rw [hinbox] at hnone
    cases hnone

/-- A rating that is not fresh leaves a write under way, and the step that follows loses the
user. -/
theorem not_kept_of_not_fresh (h : Invariant uid device) (hfresh : ¬ Fresh uid device action)
    (hstep : device.step distanceBetween uid action = some next) :
    next.app.outbox ≠ [] ∧ ∀ action after,
      next.step distanceBetween uid action = some after → ¬ Kept uid after := by
  cases action with
  | openDetail | closeDetail | locate | apply | deliver => exact absurd trivial hfresh
  | rate page rating =>
    obtain ⟨hquiet, detail, hdetail, hrates⟩ := moves_of_step distanceBetween hstep
    simp only [Fresh, hdetail, Option.some.injEq, forall_eq', Classical.not_imp] at hfresh
    obtain ⟨hlists, hmissing⟩ := hfresh
    obtain ⟨rated, hplace⟩ : ∃ rated, rated =
        Places.rate device.app.currentUser (device.app.heap.read detail.detailPlace) rating :=
      ⟨_, rfl⟩
    have houtbox : next.app.outbox = [⟨rated.key, Place.dictionaryFromPlace rated⟩] := by
      rw [hrates.app, App.rate, hquiet.1, hplace]
      rfl
    have hinbox := hrates.inbox.trans hquiet.2
    have hlisted : next.listed rated.key = true := by
      rw [hrates.listed, hplace]
      exact (h.listed _).trans hlists
    refine ⟨by simp [houtbox], fun action after hafter ↦
      not_kept_of_pending distanceBetween houtbox hinbox hlisted (fun record ↦ ?_) hafter⟩
    rw [← Bool.not_eq_true, listsVisitor_updateChildValues, hplace]
    exact hmissing

theorem fresh_of_kept {final : Device} {actions : List Action} (h : Invariant uid device)
    (hkept : PartialRun.Throughout (step distanceBetween uid) (Kept uid) device actions)
    (hrun : PartialRun.run (step distanceBetween uid) device actions = some final)
    (happlied : final.app.outbox = []) :
    PartialRun.Guarded (step distanceBetween uid) (Fresh uid) device actions := by
  induction actions generalizing device with
  | nil => trivial
  | cons action rest ih =>
    obtain ⟨next, hstep, hrest⟩ := PartialRun.run_cons_eq_some.mp hrun
    have hkeptRest := ((PartialRun.throughout_cons_of_step hstep).mp hkept).2
    have hfresh : Fresh uid device action := by
      by_contra hstale
      obtain ⟨hpending, hafter⟩ := not_kept_of_not_fresh distanceBetween h hstale hstep
      cases rest with
      | nil =>
        rw [PartialRun.run_nil, Option.some.injEq] at hrest
        exact hpending (hrest ▸ happlied)
      | cons second others =>
        obtain ⟨after, hsecond, _⟩ := PartialRun.run_cons_eq_some.mp hrest
        exact hafter second after hsecond (PartialRun.start_of_throughout
          ((PartialRun.throughout_cons_of_step hsecond).mp hkeptRest).2)
    exact (PartialRun.guarded_cons_of_step hstep).mpr
      ⟨hfresh, ih (h.step distanceBetween hfresh hstep) hkeptRest hrest⟩

/-- Assumes: a device whose user is signed in, on which nothing is under way, whose entries have
different keys and decode their records, and for which nothing is noted but what the records list.
If every rating of a run goes through an object that lists the user if the record does, the record
never loses the user, and whenever the writes are applied it has the last rating of the user for
every place. Conversely, if the visits and the ratings are kept throughout a run after which the
writes are applied, every rating of the run was such a rating. -/
theorem kept_iff {start final : Device} (hsigned : start.app.currentUser = some uid)
    (hquiet : start.Quiet) (hstore : start.app.WellFormed)
    (hmirror : ∀ ref ∈ start.app.places,
      Place.placeFromDictionary (start.network.record (start.app.heap.read ref).key).snapshot
        (start.app.heap.read ref).key = some (start.app.heap.read ref).withoutImages)
    (hlisted : ∀ key, start.listed key = (start.network.record key).listsVisitor uid)
    (hrated : start.rated = fun _ ↦ none) {actions : List Action}
    (hrun : PartialRun.run (step distanceBetween uid) start actions = some final) :
    (PartialRun.Guarded (step distanceBetween uid) (Fresh uid) start actions →
      PartialRun.Throughout (step distanceBetween uid) (Kept uid) start actions) ∧
    (final.app.outbox = [] →
      PartialRun.Throughout (step distanceBetween uid) (Kept uid) start actions →
      PartialRun.Guarded (step distanceBetween uid) (Fresh uid) start actions) := by
  have hstart : Invariant uid start :=
    ⟨echoing_of_quiet hsigned hquiet hstore hmirror hrated, hlisted, by simp [hquiet.1],
      by simp [hquiet.1]⟩
  refine ⟨fun hguarded ↦ ?_, fun happlied hkept ↦
    fresh_of_kept distanceBetween hstart hkept hrun happlied⟩
  exact PartialRun.throughout_of_guarded
    (fun _ _ _ hstate hfresh hstep ↦ hstate.step distanceBetween hfresh hstep)
    (fun _ hstate ↦ hstate.kept) hstart hguarded

theorem kept_iff_sample :
    PartialRun.Throughout (step sampleDistance "ana") (Kept "ana") sampleDevice
      [.rate 1 4, .apply, .deliver, .locate ⟨⟨42, 23⟩, none⟩, .apply, .deliver] := by
  have hruns : (PartialRun.run (step sampleDistance "ana") sampleDevice
      [.rate 1 4, .apply, .deliver, .locate ⟨⟨42, 23⟩, none⟩, .apply, .deliver]).isSome := by
    decide +kernel
  obtain ⟨final, hrun⟩ := Option.isSome_iff_exists.mp hruns
  have hunlisted : (sampleDevice.network.record "boyana").listsVisitor "ana" = false := by
    decide +kernel
  have hlisted : ∀ key, sampleDevice.listed key =
      (sampleDevice.network.record key).listsVisitor "ana" := by
    intro key
    by_cases hkey : key = "boyana"
    · rw [hkey, hunlisted]
      rfl
    · simp [sampleDevice, Network.sampleNetwork, Network.record, hkey, Record.listsVisitor,
        Record.absent]
  have hfresh : Fresh "ana" sampleDevice (.rate 1 4) := by
    intro detail hdetail place hlists
    obtain rfl := Option.some.inj hdetail
    exact absurd (hunlisted.symm.trans hlists) Bool.false_ne_true
  exact (kept_iff sampleDistance rfl ⟨rfl, rfl⟩ ⟨by decide, by decide⟩ decodes_sampleDevice hlisted
    rfl hrun).1 (PartialRun.guarded_cons_of_forall_mem hfresh (by simp [Fresh]))

/-- Open the page of a place, rate it, visit it, and rate it again through the same page, each echo
delivered before the next action: the record, which has listed the user, does not list the user any
more. -/
theorem kept_counterexample :
    sampleDevice.app.currentUser = some "ana" ∧ sampleDevice.Quiet ∧
    (∀ ref ∈ sampleDevice.app.places,
      Place.placeFromDictionary
        (sampleDevice.network.record (sampleDevice.app.heap.read ref).key).snapshot
        (sampleDevice.app.heap.read ref).key =
          some (sampleDevice.app.heap.read ref).withoutImages) ∧
    ((PartialRun.run (step sampleDistance "ana") sampleDevice
        [.openDetail 0 0, .rate 2 4, .apply, .deliver,
          .locate ⟨⟨42, 23⟩, none⟩, .apply, .deliver]).map fun device ↦
      (device.network.record "boyana").listsVisitor "ana") = some true ∧
    ((PartialRun.run (step sampleDistance "ana") sampleDevice
        [.openDetail 0 0, .rate 2 4, .apply, .deliver,
          .locate ⟨⟨42, 23⟩, none⟩, .apply, .deliver,
          .rate 2 5, .apply, .deliver]).map fun device ↦
      (device.network.record "boyana").listsVisitor "ana") = some false := by
  refine ⟨rfl, ⟨rfl, rfl⟩, by decide +kernel, by decide +kernel, by decide +kernel⟩

end Device

end BeenHere
