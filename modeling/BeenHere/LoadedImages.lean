import BeenHere.Runtime

/-!
# Loaded images

Four methods put image data into objects: the observer of `childAdded` and `prepare` from the
documents directory, and the answers to the two download methods, into the object that a request was
made for or into the entry with its key. None of them takes data out of an object. The observer of
`childChanged` replaces an entry by a fresh object without any, though, and does not look into the
documents directory. So the images of an entry stay loaded exactly in the runs in which no change
comes with the name of an image that the entry has held (`notLost_iff`).
-/

set_option autoImplicit false
set_option relaxedAutoImplicit false

namespace BeenHere

open Firebase ObjectHeap

namespace App

/-- The entry of the store for a key holds data for an image name. -/
def HoldsImage (app : App) (key name : String) : Prop :=
  ∃ ref, app.entry key = some ref ∧ (app.heap.read ref).placeImages.lookup name ≠ none

end App

/-- An app, and the keys and image names for which an entry of the store has held data. -/
structure ImageHistory where
  app : App
  held : Set (String × String)

namespace ImageHistory

open App

/-- The history of an app that has been launched. -/
def launched (currentUser : Option String) (documents : Dictionary String Data)
    (directories : String → Bool) : ImageHistory :=
  ⟨App.launched currentUser documents directories, ∅⟩

def step (history : ImageHistory) (action : RuntimeAction) : Option ImageHistory :=
  (history.app.runtimeStep action).map fun app ↦
    ⟨app, history.held ∪ {image | app.HoldsImage image.1 image.2}⟩

/-- Every entry holds data for every one of its image names for which it has held data before. -/
def NotLost (history : ImageHistory) : Prop :=
  ∀ key name ref, (key, name) ∈ history.held → history.app.entry key = some ref →
    name ∈ (history.app.heap.read ref).imageNames → history.app.HoldsImage key name

/-- A change does not come with the name of an image that the entry has held data for. -/
def Spares (history : ImageHistory) : RuntimeAction → Prop
  | .page (.observe event) => event.kind = .childChanged →
      ∀ place, Place.placeFromDictionary event.child event.key = some place →
        ∀ name ∈ place.imageNames, (event.key, name) ∉ history.held
  | _ => True

structure Invariant (history : ImageHistory) : Prop where
  displayed : history.app.Displayed
  known : ∀ key name, (key, name) ∈ history.held → (history.app.entry key).isSome

variable {history next : ImageHistory} {action : RuntimeAction}

/-- An action that is not an event keeps the entries. -/
theorem entry_of_browsed {before after : App} (h : Browsed before after) (key : String) :
    after.entry key = before.entry key := by
  have hkey (ref : Ref) : (after.heap.read ref).key = (before.heap.read ref).key :=
    Place.key_eq_of_withoutImages (h.read ref)
  simp only [entry, h.places, hkey]

/-- An entry that the store has stays an entry, the same or a new one. -/
theorem isSome_entry_of_runtimeStep {app after : App} (h : app.WellFormed)
    (hstep : app.runtimeStep action = some after) {key : String} (hkey : (app.entry key).isSome) :
    (after.entry key).isSome := by
  by_cases hevent : ∃ event, action = .page (.observe event)
  · obtain ⟨event, rfl⟩ := hevent
    obtain ⟨decoded, newPlace, hobserved⟩ := observed_of_handle h hstep
    obtain ⟨ref, hentry⟩ := Option.isSome_iff_exists.mp hkey
    by_cases hreplaced : event.kind = .childChanged ∧ key = event.key
    · rw [hreplaced.2, hobserved.replaced hreplaced.1 (hreplaced.2 ▸ hkey)]
      rfl
    · rw [hobserved.kept key ref hentry hreplaced]
      rfl
  · have hbrowsed := browsed_of_runtimeStep h (fun event haction ↦ hevent ⟨event, haction⟩) hstep
    rw [entry_of_browsed hbrowsed]
    exact hkey

theorem Invariant.step (h : history.Invariant)
    (hstep : ImageHistory.step history action = some next) : next.Invariant := by
  obtain ⟨app, happ, rfl⟩ := Option.map_eq_some_iff.mp hstep
  refine ⟨h.displayed.runtimeStep happ, fun key name hheld ↦ ?_⟩
  rcases hheld with hbefore | ⟨ref, hentry, _⟩
  · exact isSome_entry_of_runtimeStep h.displayed.store happ (h.known key name hbefore)
  · exact Option.isSome_of_eq_some hentry

/-- An event loses no image exactly if it spares those that have been held. -/
theorem notLost_observe_iff (h : history.Invariant) (hnotLost : history.NotLost) {event : Event}
    (hstep : ImageHistory.step history (.page (.observe event)) = some next) :
    next.NotLost ↔ history.Spares (.page (.observe event)) := by
  obtain ⟨app, happ, rfl⟩ := Option.map_eq_some_iff.mp hstep
  have hstore := h.displayed.store
  obtain ⟨decoded, newPlace, hobserved⟩ := observed_of_handle hstore happ
  constructor
  · intro hafter hchanged place hplace name hname hheld
    obtain rfl := Option.some.inj (hobserved.decodes.symm.trans hplace)
    have hentry := hobserved.replaced hchanged (h.known event.key name hheld)
    have hread : app.heap.read history.app.heap.next = decoded := by
      rw [hobserved.heap, Heap.read_alloc_next, hobserved.unloaded hchanged]
    -- the new entry lists the image and has no data at all
    obtain ⟨ref, href, hloaded⟩ := hafter event.key name history.app.heap.next (Or.inl hheld) hentry
      (hread ▸ hname)
    obtain rfl := Option.some.inj (hentry.symm.trans href)
    rw [hread, (Place.decodes_iff.mp hobserved.decodes).placeImages] at hloaded
    exact hloaded rfl
  · intro hspares key name ref hheld hentry hname
    rcases hheld with hbefore | hholds
    · obtain ⟨old, hold⟩ := Option.isSome_iff_exists.mp (h.known key name hbefore)
      have hlive := hstore.live old ((entry_eq_some_iff hstore).mp hold).1
      have hread : app.heap.read old = history.app.heap.read old := by
        rw [hobserved.heap, Heap.read_alloc_of_lt _ _ hlive]
      by_cases hreplaced : event.kind = .childChanged ∧ key = event.key
      · obtain ⟨hchanged, rfl⟩ := hreplaced
        obtain rfl := Option.some.inj
          ((hobserved.replaced hchanged (Option.isSome_of_eq_some hold)).symm.trans hentry)
        rw [hobserved.heap, Heap.read_alloc_next, hobserved.unloaded hchanged] at hname
        exact absurd hbefore (hspares hchanged decoded hobserved.decodes name hname)
      · have hkept := hobserved.kept key old hold hreplaced
        obtain rfl := Option.some.inj (hkept.symm.trans hentry)
        obtain ⟨other, hother, hloaded⟩ := hnotLost key name old hbefore hold (hread ▸ hname)
        obtain rfl := Option.some.inj (hother.symm.trans hold)
        exact ⟨other, hkept, hread ▸ hloaded⟩
    · exact hholds

/-- An action loses no image exactly if it spares those that have been held. -/
theorem notLost_step_iff (h : history.Invariant) (hnotLost : history.NotLost)
    (hstep : ImageHistory.step history action = some next) :
    next.NotLost ↔ history.Spares action := by
  by_cases hevent : ∃ event, action = .page (.observe event)
  · obtain ⟨event, rfl⟩ := hevent
    exact notLost_observe_iff h hnotLost hstep
  · obtain ⟨app, happ, rfl⟩ := Option.map_eq_some_iff.mp hstep
    have hbrowsed := browsed_of_runtimeStep h.displayed.store
      (fun event haction ↦ hevent ⟨event, haction⟩) happ
    refine iff_of_true (fun key name ref hheld hentry hname ↦ ?_) ?_
    · rcases hheld with hbefore | hholds
      · have hnames : (app.heap.read ref).imageNames = (history.app.heap.read ref).imageNames :=
          Place.imageNames_eq_of_withoutImages (hbrowsed.read ref)
        rw [entry_of_browsed hbrowsed] at hentry
        obtain ⟨other, hother, hloaded⟩ := hnotLost key name ref hbefore hentry (hnames ▸ hname)
        exact ⟨other, (entry_of_browsed hbrowsed key).trans hother,
          hbrowsed.images other name hloaded⟩
      · exact hholds
    · unfold Spares
      split
      · rename_i event
        exact absurd ⟨event, rfl⟩ hevent
      · trivial

/-- Assumes: a run from launch. In every state of the run every entry of the store holds data for
those of its image names for which an entry of its key has held data before, precisely when no
change of the run comes with the name of an image that the entry of its key has held data for. -/
theorem notLost_iff {currentUser : Option String} {documents : Dictionary String Data}
    {directories : String → Bool} {actions : List RuntimeAction} {final : ImageHistory}
    (hrun : PartialRun.run step (launched currentUser documents directories) actions =
      some final) :
    PartialRun.Throughout step NotLost (launched currentUser documents directories) actions ↔
      PartialRun.Guarded step Spares (launched currentUser documents directories) actions := by
  have hstart : Invariant (launched currentUser documents directories) :=
    ⟨displayed_launched currentUser documents directories, fun _ _ hheld ↦ hheld.elim⟩
  have hnone : NotLost (launched currentUser documents directories) := fun _ _ _ hheld ↦ hheld.elim
  exact PartialRun.throughout_iff_guarded
    (fun history action next h _ hstep ↦ Invariant.step h hstep)
    (fun history action next h hproperty hstep ↦ notLost_step_iff h hproperty hstep) hstart hnone
    hrun

/-- A place is added, its image is downloaded, its detail page is opened, and the addition is
replayed. -/
theorem notLost_iff_sample : ∃ final,
    PartialRun.run step (launched none ∅ sampleDirectories)
      [.page .openList, .page (.observe (sampleEvent .childAdded samplePlace)),
        .finishFirstImage 0 (some [1]) true, .page (.openDetail 0 0),
        .page (.observe (sampleEvent .childAdded samplePlace))] = some final ∧
    PartialRun.Throughout step NotLost (launched none ∅ sampleDirectories)
      [.page .openList, .page (.observe (sampleEvent .childAdded samplePlace)),
        .finishFirstImage 0 (some [1]) true, .page (.openDetail 0 0),
        .page (.observe (sampleEvent .childAdded samplePlace))] := by
  have hruns : (PartialRun.run step (launched none ∅ sampleDirectories)
      [.page .openList, .page (.observe (sampleEvent .childAdded samplePlace)),
        .finishFirstImage 0 (some [1]) true, .page (.openDetail 0 0),
        .page (.observe (sampleEvent .childAdded samplePlace))]).isSome = true := by decide +kernel
  obtain ⟨final, hrun⟩ := Option.isSome_iff_exists.mp hruns
  refine ⟨final, hrun, (notLost_iff hrun).mpr (PartialRun.guarded_of_forall_mem ?_ _)⟩
  intro action haction history
  simp only [List.mem_cons, List.not_mem_nil, or_false] at haction
  rcases haction with rfl | rfl | rfl | rfl | rfl
  · trivial
  · exact fun hchanged ↦ EventKind.noConfusion hchanged
  · trivial
  · trivial
  · exact fun hchanged ↦ EventKind.noConfusion hchanged

/-- A documents directory with one image. -/
def fileDocuments : Dictionary String Data := (∅ : Dictionary String Data).insert "boyana.jpg" [1]

/-- A place is added with its image from the documents directory, and then changed: the entry has no
data for the image any more. -/
theorem notLost_counterexample :
    ¬ PartialRun.Throughout step NotLost
      (launched none fileDocuments sampleDirectories)
      [.page (.observe (sampleEvent .childAdded samplePlace)),
        .page (.observe (sampleEvent .childChanged visitedPlace))] := by
  intro hthroughout
  have hruns : (runtimeStep
      (App.launched none fileDocuments sampleDirectories)
      (.page (.observe (sampleEvent .childAdded samplePlace)))).bind (fun loaded ↦
        (loaded.runtimeStep (.page (.observe (sampleEvent .childChanged visitedPlace)))).map
          fun changed ↦ decide (loaded.entry "boyana" = some 0 ∧
            (loaded.heap.read 0).placeImages.lookup "boyana.jpg" = some [1] ∧
            changed.entry "boyana" = some 1 ∧
            (changed.heap.read 1).imageNames = ["boyana.jpg"] ∧
            (changed.heap.read 1).placeImages.lookup "boyana.jpg" = none)) = some true := by
    decide +kernel
  obtain ⟨loaded, hloaded, hrest⟩ := Option.bind_eq_some_iff.mp hruns
  obtain ⟨changed, hchanged, hfacts⟩ := Option.map_eq_some_iff.mp hrest
  obtain ⟨hentry, hdata, hnew, hnames, hnone⟩ := of_decide_eq_true hfacts
  have hfirst : step (launched none fileDocuments sampleDirectories)
      (.page (.observe (sampleEvent .childAdded samplePlace))) =
        some ⟨loaded, ∅ ∪ {image | loaded.HoldsImage image.1 image.2}⟩ := by
    rw [step, launched, hloaded]
    rfl
  have hsecond : step ⟨loaded, ∅ ∪ {image | loaded.HoldsImage image.1 image.2}⟩
      (.page (.observe (sampleEvent .childChanged visitedPlace))) =
        some ⟨changed, ∅ ∪ {image | loaded.HoldsImage image.1 image.2} ∪
          {image | changed.HoldsImage image.1 image.2}⟩ := by
    rw [step, hchanged]
    rfl
  have hafter := ((PartialRun.throughout_cons_of_step hfirst).mp hthroughout).2
  have hfinal := PartialRun.start_of_throughout
    ((PartialRun.throughout_cons_of_step hsecond).mp hafter).2
  have hheld : loaded.HoldsImage "boyana" "boyana.jpg" :=
    ⟨0, hentry, by rw [hdata]; exact Option.some_ne_none _⟩
  obtain ⟨ref, href, hlost⟩ := hfinal "boyana" "boyana.jpg" 1 (Or.inl (Or.inr hheld)) hnew
    (hnames ▸ List.mem_cons_self)
  obtain rfl := Option.some.inj (hnew.symm.trans href)
  exact hlost hnone

end ImageHistory

end BeenHere
