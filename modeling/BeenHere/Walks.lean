import BeenHere.Fixes

/-!
# A walk as a whole

What a sequence of fixes does to the device of a user who is signed in. A fix visits the places less
than 500 m away; a place that an earlier fix has visited lists the user, so that the visit of a
later one is refused. A walk therefore visits every place less than 500 m from some fix, once, in
the order in which they are reached (`walk_fst`, `reached_perm`). It congratulates once on each of
them that did not list the user before and whose first fix less than 500 m away is less than 100 m
away (`alerts_walk_perm`). Of the view only the alerts enter, and only as what is appended to
(`locationUpdated_congr`).
-/

set_option autoImplicit false
set_option relaxedAutoImplicit false

namespace BeenHere

open ObjectHeap

namespace App

variable {app : App} {place : Ref} {places : List Ref} {uid : String}

/-! ### Visiting twice -/

/-- Assumes: a user who is signed in. A second visit is refused. -/
theorem accepts_visitAll_of_mem (huser : app.currentUser = some uid) (hplace : place ∈ places) :
    (app.visitAll places).accepts place = false := by
  have hread : (app.visitAll places).heap.read place = app.visited place := if_pos hplace
  rw [accepts_eq_false_iff, hread]
  change Places.visitName app.currentUser _ ∈ _
  rw [App.visited, huser]
  by_cases hmem : uid ∈ (app.heap.read place).visitors
  · rw [Places.visit_of_mem (by exact hmem)]
    exact hmem
  · rw [Places.visit_of_notMem (by exact hmem)]
    exact List.mem_append_right _ List.mem_cons_self

/-- Places whose visit would be refused may be left out. -/
theorem visitAll_filter {keep : Ref → Bool}
    (hrefused : ∀ place ∈ places, keep place = false → app.accepts place = false) :
    app.visitAll (places.filter keep) = app.visitAll places := by
  have hread : (fun ref ↦ if ref ∈ places.filter keep then app.visited ref
      else app.heap.read ref) =
        fun ref ↦ if ref ∈ places then app.visited ref else app.heap.read ref := by
    funext ref
    by_cases hplace : ref ∈ places
    · cases hkeep : keep ref with
      | false => rw [visited_of_refused (hrefused ref hplace hkeep), ite_self, ite_self]
      | true => rw [if_pos (List.mem_filter.mpr ⟨hplace, hkeep⟩), if_pos hplace]
    · rw [if_neg fun hmem ↦ hplace (List.mem_filter.mp hmem).1, if_neg hplace]
  have haccepted : (places.filter keep).filter app.accepts = places.filter app.accepts := by
    rw [List.filter_filter]
    refine List.filter_congr fun place hplace ↦ ?_
    cases hkeep : keep place with
    | false => rw [hrefused place hplace hkeep, Bool.false_and]
    | true => rw [Bool.and_true]
  rw [visitAll, visitAll, hread, haccepted]

/-- Assumes: a user who is signed in. Of a second list only the places that the first does not name
are visited. -/
theorem visitAll_visitAll (huser : app.currentUser = some uid) (first second : List Ref) :
    (app.visitAll first).visitAll second =
      app.visitAll (first ++ second.filter fun place ↦ place ∉ first) := by
  have hdisjoint : first.Disjoint (second.filter fun place ↦ place ∉ first) :=
    fun place hfirst hsecond ↦ of_decide_eq_true (List.mem_filter.mp hsecond).2 hfirst
  rw [← visitAll_append hdisjoint]
  refine (visitAll_filter fun place _ hkeep ↦ accepts_visitAll_of_mem huser ?_).symm
  exact not_not.mp (of_decide_eq_false hkeep)

/-- The order of the visits is only the order of the writes. -/
theorem visitAll_perm {first second : List Ref} (h : first.Perm second) :
    { app.visitAll first with outbox := (app.visitAll second).outbox } = app.visitAll second ∧
      (app.visitAll first).outbox.Perm (app.visitAll second).outbox := by
  have hread : (fun ref ↦ if ref ∈ first then app.visited ref else app.heap.read ref) =
      fun ref ↦ if ref ∈ second then app.visited ref else app.heap.read ref := by
    funext ref
    simp only [h.mem_iff]
  refine ⟨?_, ((h.filter _).map _).append_left _⟩
  simp only [visitAll, hread]

/-- Visits change no key and no other place of the store. -/
theorem WellFormed.visitAll (h : app.WellFormed) (places : List Ref) :
    (app.visitAll places).WellFormed := by
  refine h.of_key rfl rfl fun ref ↦ ?_
  by_cases href : ref ∈ places
  · have hread : (app.visitAll places).heap.read ref = app.visited ref := if_pos href
    rw [hread, visited, Places.key_visit]
  · rw [read_visitAll_of_notMem href]

end App

/-! ### The places of a walk -/

section Walk

variable {distanceBetween : Point → Point → ℚ}
variable {app : App} {place : Ref} {uid : String}

variable (distanceBetween) in
/-- The places of the store less than 500 m from some fix, in the order in which they are reached.
-/
def App.reached (app : App) (fixes : List Fix) : List Ref :=
  fixes.foldl (fun reached fix ↦ reached ++
    (app.nearby distanceBetween fix.coordinate app.places).filter fun place ↦ place ∉ reached) []

theorem reached_concat (app : App) (fixes : List Fix) (fix : Fix) :
    app.reached distanceBetween (fixes ++ [fix]) = app.reached distanceBetween fixes ++
      (app.nearby distanceBetween fix.coordinate app.places).filter fun place ↦
        place ∉ app.reached distanceBetween fixes := by
  rw [App.reached, List.foldl_append]
  rfl

theorem mem_reached_iff {fixes : List Fix} : place ∈ app.reached distanceBetween fixes ↔
    place ∈ app.places ∧
      ∃ fix ∈ fixes, app.distanceTo distanceBetween place fix.coordinate < 500 := by
  induction fixes using List.reverseRecOn with
  | nil => simp [App.reached]
  | append_singleton fixes fix ih =>
    rw [reached_concat, List.mem_append, List.mem_filter, App.nearby, List.mem_filter,
      decide_eq_true_iff, decide_eq_true_iff]
    constructor
    · rintro (hold | ⟨⟨hplace, hring⟩, _⟩)
      · obtain ⟨hplace, other, hother, hring⟩ := ih.mp hold
        exact ⟨hplace, other, List.mem_append_left _ hother, hring⟩
      · exact ⟨hplace, fix, List.mem_append_right _ List.mem_cons_self, hring⟩
    · rintro ⟨hplace, other, hother, hring⟩
      by_cases hold : place ∈ app.reached distanceBetween fixes
      · exact Or.inl hold
      · rcases List.mem_append.mp hother with hearlier | hlast
        · exact absurd (ih.mpr ⟨hplace, other, hearlier, hring⟩) hold
        · rw [List.mem_singleton.mp hlast] at hring
          exact Or.inr ⟨⟨hplace, hring⟩, hold⟩

theorem nodup_reached (hplaces : app.places.Nodup) (fixes : List Fix) :
    (app.reached distanceBetween fixes).Nodup := by
  induction fixes using List.reverseRecOn with
  | nil => exact List.nodup_nil
  | append_singleton fixes fix ih =>
    rw [reached_concat]
    exact ih.append ((hplaces.filter _).filter _) fun place hold hnew ↦
      of_decide_eq_true (List.mem_filter.mp hnew).2 hold

/-- The places reached are those of the store less than 500 m from some fix. -/
theorem reached_perm (hplaces : app.places.Nodup) (fixes : List Fix) :
    (app.reached distanceBetween fixes).Perm (app.places.filter fun place ↦
      fixes.any fun fix ↦ app.distanceTo distanceBetween place fix.coordinate < 500) := by
  rw [List.perm_ext_iff_of_nodup (nodup_reached hplaces fixes) (hplaces.filter _)]
  intro place
  rw [mem_reached_iff, List.mem_filter, List.any_eq_true]
  simp only [decide_eq_true_iff]

/-- The order of the fixes is only the order in which the places are reached. -/
theorem reached_perm_of_perm (hplaces : app.places.Nodup) {first second : List Fix}
    (h : first.Perm second) :
    (app.reached distanceBetween first).Perm (app.reached distanceBetween second) := by
  rw [List.perm_ext_iff_of_nodup (nodup_reached hplaces first) (nodup_reached hplaces second)]
  intro place
  simp only [mem_reached_iff, h.mem_iff]

/-! ### The app after a walk -/

theorem walk_concat (start : App × Locator) (fixes : List Fix) (fix : Fix) :
    walk distanceBetween start (fixes ++ [fix]) =
      locationUpdated distanceBetween (walk distanceBetween start fixes).1
        (walk distanceBetween start fixes).2 fix := by
  rw [walk, List.foldl_append]
  rfl

/-- A walk keeps the store well formed. -/
theorem App.WellFormed.walk (h : app.WellFormed) (view : Locator) (fixes : List Fix) :
    (walk distanceBetween (app, view) fixes).1.WellFormed := by
  induction fixes using List.reverseRecOn with
  | nil => exact h
  | append_singleton fixes fix ih =>
    rw [walk_concat, ih.locationUpdated_fst]
    exact ih.visitAll _

variable (distanceBetween) in
/-- Assumes: a well formed store. What a fix does to the app does not depend on the view, and what
it does to the alerts depends on the alerts only. -/
theorem locationUpdated_congr (h : app.WellFormed) {first second : Locator}
    (halerts : first.alerts = second.alerts) (fix : Fix) :
    (locationUpdated distanceBetween app first fix).1 =
        (locationUpdated distanceBetween app second fix).1 ∧
      (locationUpdated distanceBetween app first fix).2.alerts =
        (locationUpdated distanceBetween app second fix).2.alerts := by
  rw [h.locationUpdated_fst, h.locationUpdated_fst, h.alerts_locationUpdated,
    h.alerts_locationUpdated, halerts]
  exact ⟨rfl, rfl⟩

/-- Assumes: a well formed store, and a user who is signed in. A walk visits the places that it
reaches. -/
theorem walk_fst (h : app.WellFormed) (huser : app.currentUser = some uid) (view : Locator)
    (fixes : List Fix) : (walk distanceBetween (app, view) fixes).1 =
      app.visitAll (app.reached distanceBetween fixes) := by
  induction fixes using List.reverseRecOn with
  | nil => exact (App.visitAll_nil app).symm
  | append_singleton fixes fix ih =>
    have hnearby : (app.visitAll (app.reached distanceBetween fixes)).nearby distanceBetween
        fix.coordinate app.places = app.nearby distanceBetween fix.coordinate app.places :=
      nearby_visitAll app _ _
    rw [walk_concat, ih, (h.visitAll _).locationUpdated_fst, reached_concat,
      ← App.visitAll_visitAll huser]
    exact congrArg (App.visitAll _) hnearby

/-! ### The alerts of a walk -/

theorem Encounter.foldl_meet_of_visited {Location : Type} (distance : Location → ℚ)
    {encounter : Encounter} (h : encounter.visited = true) (locations : List Location) :
    locations.foldl (fun encounter location ↦ encounter.meet (distance location)) encounter =
      encounter := by
  induction locations with
  | nil => rfl
  | cons location rest ih => rw [List.foldl_cons, meet_of_visited h, ih]

/-- A walk congratulates on places of the store. -/
theorem alerts_walk_subset (h : app.WellFormed) (huser : app.currentUser = some uid)
    {view : Locator} (halerts : view.alerts = []) (fixes : List Fix) :
    ∀ place ∈ (walk distanceBetween (app, view) fixes).2.alerts, place ∈ app.places := by
  induction fixes using List.reverseRecOn with
  | nil =>
    intro place hplace
    change place ∈ view.alerts at hplace
    rw [halerts] at hplace
    cases hplace
  | append_singleton fixes fix ih =>
    intro place hplace
    rw [walk_concat, walk_fst h huser, (h.visitAll _).alerts_locationUpdated] at hplace
    rcases List.mem_append.mp hplace with hold | hnew
    · exact ih place hold
    · exact (List.mem_filter.mp (List.mem_filter.mp hnew).1).1

/-- The places that a walk congratulates on: those that do not list the user and whose first fix
less than 500 m away is less than 100 m away. -/
def App.celebratesOn (distanceBetween : Point → Point → ℚ) (app : App) (fixes : List Fix)
    (place : Ref) : Bool :=
  app.accepts place &&
    (fixes.find? fun fix ↦ app.distanceTo distanceBetween place fix.coordinate < 500).any
      fun fix ↦ app.distanceTo distanceBetween place fix.coordinate < 100

/-- Assumes: a user who is signed in, no alert yet, and a place of the store. -/
theorem count_alerts_walk (huser : app.currentUser = some uid) {view : Locator}
    (halerts : view.alerts = []) (fixes : List Fix) (hplace : place ∈ app.places) :
    (walk distanceBetween (app, view) fixes).2.alerts.count place =
      if app.celebratesOn distanceBetween fixes place = true then 1 else 0 := by
  have hwalk := congrArg Encounter.alerts
    (encounter_walk distanceBetween (app, view) fixes huser hplace)
  have hcount : view.alerts.count place = 0 := by rw [halerts, List.count_nil]
  refine hwalk.trans ?_
  by_cases hmem : uid ∈ (app.heap.read place).visitors
  · have haccepts : app.accepts place = false := by
      rw [App.accepts_eq_false_iff, huser]
      exact hmem
    have hvisited : (encounter uid app view place).visited = true := by simp [encounter, hmem]
    rw [Encounter.foldl_meet_of_visited
      (fun fix : Fix ↦ app.distanceTo distanceBetween place fix.coordinate) hvisited,
      App.celebratesOn, haccepts]
    exact hcount
  · have haccepts : app.accepts place = true := by
      rw [App.accepts_iff, huser]
      exact hmem
    have hstart : encounter uid app view place = ⟨false, 0⟩ := by
      simp [encounter, hmem, halerts]
    rw [hstart, foldl_meet fun fix : Fix ↦ app.distanceTo distanceBetween place fix.coordinate,
      App.celebratesOn, haccepts, Bool.true_and]
    cases fixes.find? fun fix ↦ app.distanceTo distanceBetween place fix.coordinate < 500 with
    | none => rfl
    | some fix => simp

/-- Assumes: a well formed store, a user who is signed in, and no alert yet. -/
theorem alerts_walk_perm (h : app.WellFormed) (huser : app.currentUser = some uid)
    {view : Locator} (halerts : view.alerts = []) (fixes : List Fix) :
    (walk distanceBetween (app, view) fixes).2.alerts.Perm
      (app.places.filter (app.celebratesOn distanceBetween fixes)) := by
  rw [List.perm_iff_count]
  intro place
  by_cases hplace : place ∈ app.places
  · rw [count_alerts_walk huser halerts fixes hplace]
    by_cases hcelebrates : app.celebratesOn distanceBetween fixes place = true
    · rw [if_pos hcelebrates, List.count_filter hcelebrates,
        List.count_eq_one_of_mem h.nodup hplace]
    · rw [if_neg hcelebrates, List.count_eq_zero_of_not_mem fun hmem ↦
        hcelebrates (List.mem_filter.mp hmem).2]
  · rw [List.count_eq_zero_of_not_mem fun hmem ↦
        hplace (alerts_walk_subset h huser halerts fixes place hmem),
      List.count_eq_zero_of_not_mem fun hmem ↦ hplace (List.mem_filter.mp hmem).1]

end Walk

end BeenHere
