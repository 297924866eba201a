import BeenHere.Anonymous
import BeenHere.Consistency
import BeenHere.Copies
import BeenHere.Ratings

/-!
# What runs make of the copies

Copies overwrite each other, so that a run may lose visits and ratings. It invents nothing, though:
every copy descends from one at the start by calls of the run (`descends_of_run`). Hence no run
changes what describes a place, takes a visitor off the copy that another one descends from, or a
user off its ratings (`frame_of_run`). A visitor or a rating that no copy had at the start is due to
a call of the run on that place, under that name (`provenance_of_run`). No name is ever listed twice
(`nodup_visitors_of_run`), and if every rating is a number of stars, so is every average
(`rating_mem_of_run`).
-/

set_option autoImplicit false
set_option relaxedAutoImplicit false

namespace BeenHere

open Firebase ObjectHeap

/-! ### What calls make of a place -/

/-- The place without its visitors, its ratings and its image data. -/
def Place.details (place : Place) : Place :=
  { place with visitors := [], ratings := ∅, rating := 0, placeImages := ∅ }

theorem Place.details_eq_of_withoutImages {first second : Place}
    (h : first.withoutImages = second.withoutImages) : first.details = second.details := by
  have hdetails := congrArg Place.details h
  exact hdetails

theorem Place.ratings_eq_of_withoutImages {first second : Place}
    (h : first.withoutImages = second.withoutImages) : first.ratings = second.ratings := by
  have hratings := congrArg Place.ratings h
  exact hratings

/-- A visit of a caller is recorded under the name. -/
def VisitsAs (caller : Option String) (name : String) : Prop :=
  caller = some name ∨ caller = none ∧ ∃ number, name = anonymousName number

/-- A rating of a caller is recorded under the name. -/
def RatesAs (caller : Option String) (name : String) : Prop :=
  caller = some name ∨ caller = none ∧ ∃ number, name = decimal number

theorem visitsAs_visitName (caller : Option String) (place : Place) :
    VisitsAs caller (Places.visitName caller place) := by
  cases caller with
  | none => exact Or.inr ⟨rfl, _, rfl⟩
  | some uid => exact Or.inl rfl

theorem ratesAs_rateName (caller : Option String) (place : Place) :
    RatesAs caller (Places.rateName caller place) := by
  cases caller with
  | none => exact Or.inr ⟨rfl, _, rfl⟩
  | some uid => exact Or.inl rfl

namespace Places

variable {place old : Place} {calls : List (Option String × Call)}

/-- What a call may do to the visitors. -/
theorem visitors_perform (place : Place) (caller : Option String) (call : Call) :
    (perform place (caller, call)).visitors = place.visitors ∨
      call = .visit ∧ visitName caller place ∉ place.visitors ∧
        (perform place (caller, call)).visitors = place.visitors ++ [visitName caller place] := by
  cases call with
  | visit =>
    by_cases hmem : visitName caller place ∈ place.visitors
    · rw [perform, visit_of_mem hmem]
      exact Or.inl rfl
    · rw [perform, visit_of_notMem hmem]
      exact Or.inr ⟨rfl, hmem, rfl⟩
  | rate rating => exact Or.inl rfl

/-- What a call may do to the ratings. -/
theorem ratings_perform (place : Place) (caller : Option String) (call : Call) :
    (perform place (caller, call)).ratings = place.ratings ∨
      ∃ rating, call = .rate rating ∧ (perform place (caller, call)).ratings =
        place.ratings.insert (rateName caller place) rating := by
  cases call with
  | visit => exact Or.inl (ratings_visit ..)
  | rate rating => exact Or.inr ⟨rating, rfl, rfl⟩

theorem details_perform (place : Place) (call : Option String × Call) :
    (perform place call).details = place.details := by
  obtain ⟨caller, call⟩ := call
  cases call with
  | visit =>
    by_cases hmem : visitName caller place ∈ place.visitors
    · rw [perform, visit_of_mem hmem]
    · rw [perform, visit_of_notMem hmem]
      rfl
  | rate rating => rfl

/-- The rule for a sequence of calls. -/
theorem foldl_perform_rule (property : Place → Prop) (hold : property old)
    (hcalls : ∀ place, property place → ∀ call ∈ calls, property (perform place call)) :
    property (calls.foldl perform old) := by
  induction calls generalizing old with
  | nil => exact hold
  | cons call rest ih =>
    exact ih (hcalls old hold call List.mem_cons_self) fun place hplace other hother ↦
      hcalls place hplace other (List.mem_cons_of_mem _ hother)

theorem details_foldl_perform (old : Place) (calls : List (Option String × Call)) :
    (calls.foldl perform old).details = old.details :=
  foldl_perform_rule (fun place ↦ place.details = old.details) rfl fun place hplace call _ ↦
    (details_perform place call).trans hplace

theorem visitors_foldl_perform (old : Place) (calls : List (Option String × Call)) :
    old.visitors <+: (calls.foldl perform old).visitors := by
  refine foldl_perform_rule (fun place ↦ old.visitors <+: place.visitors) (List.prefix_refl _)
    fun place hplace call _ ↦ ?_
  rcases visitors_perform place call.1 call.2 with hsame | ⟨_, _, hnew⟩
  · rw [hsame]
    exact hplace
  · rw [hnew]
    exact hplace.trans (List.prefix_append ..)

theorem keys_foldl_perform (old : Place) (calls : List (Option String × Call)) :
    old.ratings.keys ⊆ (calls.foldl perform old).ratings.keys := by
  refine foldl_perform_rule (fun place ↦ old.ratings.keys ⊆ place.ratings.keys)
    (Finset.Subset.refl _) fun place hplace call _ ↦ ?_
  rcases ratings_perform place call.1 call.2 with hsame | ⟨_, _, hnew⟩
  · rw [hsame]
    exact hplace
  · rw [hnew, Dictionary.keys_insert]
    exact hplace.trans (Finset.subset_insert ..)

/-- A visitor is an old one or due to a visit. -/
theorem mem_visitors_foldl_perform {name : String}
    (h : name ∈ (calls.foldl perform old).visitors) :
    name ∈ old.visitors ∨ ∃ caller, (caller, .visit) ∈ calls ∧ VisitsAs caller name := by
  refine foldl_perform_rule (fun place ↦ name ∈ place.visitors →
    name ∈ old.visitors ∨ ∃ caller, (caller, .visit) ∈ calls ∧ VisitsAs caller name) Or.inl
    (fun place hplace call hcall h ↦ ?_) h
  obtain ⟨caller, call⟩ := call
  rcases visitors_perform place caller call with hsame | ⟨rfl, _, hnew⟩
  · exact hplace (hsame ▸ h)
  · rw [hnew] at h
    rcases List.mem_append.mp h with hold | hlast
    · exact hplace hold
    · rw [List.mem_singleton.mp hlast]
      exact Or.inr ⟨caller, hcall, visitsAs_visitName caller place⟩

/-- A rating is an old one or due to a call that submits it. -/
theorem lookup_ratings_foldl_perform {name : String} {rating : ℤ}
    (h : (calls.foldl perform old).ratings.lookup name = some rating) :
    old.ratings.lookup name = some rating ∨
      ∃ caller, (caller, .rate rating) ∈ calls ∧ RatesAs caller name := by
  refine foldl_perform_rule (fun place ↦ place.ratings.lookup name = some rating →
    old.ratings.lookup name = some rating ∨
      ∃ caller, (caller, .rate rating) ∈ calls ∧ RatesAs caller name) Or.inl
    (fun place hplace call hcall h ↦ ?_) h
  obtain ⟨caller, call⟩ := call
  rcases ratings_perform place caller call with hsame | ⟨value, rfl, hnew⟩
  · exact hplace (hsame ▸ h)
  · rw [hnew] at h
    by_cases hname : name = rateName caller place
    · rw [hname, Finmap.lookup_insert, Option.some.injEq] at h
      rw [hname, ← h]
      exact Or.inr ⟨caller, hcall, ratesAs_rateName caller place⟩
    · rw [Finmap.lookup_insert_of_ne _ hname] at h
      exact hplace h

theorem nodup_visitors_foldl_perform (h : old.visitors.Nodup) :
    (calls.foldl perform old).visitors.Nodup := by
  refine foldl_perform_rule (fun place ↦ place.visitors.Nodup) h fun place hplace call _ ↦ ?_
  rcases visitors_perform place call.1 call.2 with hsame | ⟨_, hnot, hnew⟩
  · rw [hsame]
    exact hplace
  · rw [hnew, ← List.concat_eq_append, List.nodup_concat]
    exact ⟨hnot, hplace⟩

theorem ratingIsMean_foldl_perform (h : old.RatingIsMean) :
    (calls.foldl perform old).RatingIsMean := by
  refine foldl_perform_rule Place.RatingIsMean h fun place hplace call _ ↦ ?_
  obtain ⟨caller, call⟩ := call
  cases call with
  | visit => exact Place.ratingIsMean_visit hplace caller
  | rate rating => exact Place.ratingIsMean_rate place caller rating

end Places

/-- Assumes: a rating that is the mean of ratings between two bounds. It is 0, for no ratings, or
between the bounds. -/
theorem Place.rating_mem_of_ratings {place : Place} (hmean : place.RatingIsMean) {low high : ℤ}
    (h : ∀ name value, place.ratings.lookup name = some value → low ≤ value ∧ value ≤ high) :
    place.rating = 0 ∨ (low : ℚ) ≤ place.rating ∧ place.rating ≤ high := by
  have hvalues {value : ℤ} (hvalue : value ∈ place.ratings.values) :
      low ≤ value ∧ value ≤ high := by
    obtain ⟨name, hname⟩ := Dictionary.mem_values_iff.mp hvalue
    exact h name value hname
  have hrating : place.rating = place.calculateRating := hmean
  by_cases hempty : place.ratings.values = 0
  · have hcard := Dictionary.card_values place.ratings
    rw [hempty, Multiset.card_zero] at hcard
    left
    rw [hrating, calculateRating, if_neg (by omega)]
  · obtain ⟨least, hleast, greatest, hgreatest, _, hlow, hhigh⟩ :=
      exists_calculateRating_mem hempty
    right
    rw [hrating]
    exact ⟨(Int.cast_le.mpr (hvalues hleast).1).trans hlow,
      hhigh.trans (Int.cast_le.mpr (hvalues hgreatest).2)⟩

/-! ### Every copy after a run -/

namespace Network

variable {ι : Type} [DecidableEq ι] (distanceBetween : Point → Point → ℚ)
variable {start final : Network ι} {actions : List (Action ι)} {place : Place}

/-- The calls of a run that write a place, with the key of the place and the caller, oldest
first. -/
def callsOf (start : Network ι) (actions : List (Action ι)) :
    List (String × Option String × Call) :=
  PartialRun.trace (step distanceBetween) (calls distanceBetween) start actions

/-- A rating that a run has made was submitted in the run. -/
theorem exists_rate_of_mem_callsOf {key : String} {caller : Option String} {rating : ℤ}
    (h : (key, caller, .rate rating) ∈ callsOf distanceBetween start actions) :
    ∃ client ref, .rate client ref rating ∈ actions := by
  obtain ⟨action, haction, network, hcall⟩ := PartialRun.exists_of_mem_trace h
  cases action with
  | rate client ref value =>
    simp only [calls, List.mem_singleton, Prod.mk.injEq, Call.rate.injEq] at hcall
    exact ⟨client, ref, hcall.2.2 ▸ haction⟩
  | visit client place =>
    simp only [calls] at hcall
    split_ifs at hcall <;> simp at hcall
  | locate client fix => simp [calls] at hcall
  | apply | deliver | observe | remove => simp [calls] at hcall

theorem descent_of_copy (hready : start.Ready)
    (hlive : PartialRun.Guarded (step distanceBetween) Live start actions)
    (hrun : PartialRun.run (step distanceBetween) start actions = some final)
    (hcopy : final.Copy place) : Descends start (callsOf distanceBetween start actions) place :=
  (everywhere_descends distanceBetween hready hlive hrun).of_copy descends_withoutImages hcopy

/-- Assumes: well formed stores, writes under way that encode places, and a run whose calls are made
on objects that have been allocated. Image data aside, every copy after the run is a copy from the
start after some of the calls that the run made on the place, in the order in which they were made,
whatever the order in which the writes were applied and the events delivered. -/
theorem descends_of_run (hready : start.Ready)
    (hlive : PartialRun.Guarded (step distanceBetween) Live start actions)
    (hrun : PartialRun.run (step distanceBetween) start actions = some final)
    (hcopy : final.Copy place) :
    ∃ (old : Place) (calls : List (Option String × Call)), start.Copy old ∧ old.key = place.key ∧
      (calls.map fun call ↦ (place.key, call)).Sublist (callsOf distanceBetween start actions) ∧
      place.withoutImages = (calls.foldl Places.perform old).withoutImages := by
  obtain ⟨old, calls, hold, hcalls, hplace⟩ :=
    descent_of_copy distanceBetween hready hlive hrun hcopy
  have hkey := Place.key_eq_of_withoutImages hplace
  rw [Places.key_foldl_perform] at hkey
  exact ⟨old, calls, hold, hkey.symm, hcalls, hplace⟩

omit [DecidableEq ι] in
theorem ready_sampleNetwork : sampleNetwork.Ready where
  store client := by cases client <;> exact ⟨by decide, by decide⟩
  encodes _ _ hwrite := (List.not_mem_nil hwrite).elim

/-- Both users visit, the second one rates, and the writes of the second are applied over the first
visit. -/
def sampleCalls : List (Action Bool) :=
  [.visit true 0, .visit false 0, .rate false 0 1, .apply true 0, .apply false 0, .apply false 0,
    .deliver true 2]

theorem live_sampleCalls :
    PartialRun.Guarded (step sampleDistance) Live sampleNetwork sampleCalls := by
  decide +kernel

omit [DecidableEq ι] in
theorem eq_samplePlace_of_copy (h : sampleNetwork.Copy place) : place = samplePlace := by
  cases h with
  | object client ref hlive => cases client <;> rfl
  | write client place hmem => exact (List.not_mem_nil hmem).elim
  | event client event hmem place hdecoded => exact (List.not_mem_nil hmem).elim
  | record key record hrecord place hdecoded =>
    by_cases hkey : key = "boyana"
    · simp only [sampleNetwork, hkey, Function.update_self, Option.some.injEq] at hrecord
      rw [← hrecord, hkey, Place.placeFromDictionary_sampleRecord] at hdecoded
      exact (Option.some.inj hdecoded).symm
    · simp [sampleNetwork, hkey] at hrecord

theorem exists_copy_sampleCalls :
    ∃ final, PartialRun.run (step sampleDistance) sampleNetwork sampleCalls = some final ∧
      ∃ place, final.Copy place ∧ place.key = "boyana" ∧ place.visitors = ["boris"] ∧
        place.ratings.lookup "boris" = some 1 ∧ place.rating = 1 := by
  have hruns : (PartialRun.run (step sampleDistance) sampleNetwork sampleCalls).map
      (fun final ↦ decide (1 < (final.client true).app.heap.next ∧
        ((final.client true).app.heap.read 1).key = "boyana" ∧
        ((final.client true).app.heap.read 1).visitors = ["boris"] ∧
        ((final.client true).app.heap.read 1).ratings.lookup "boris" = some 1 ∧
        ((final.client true).app.heap.read 1).rating = 1)) = some true := by
    decide +kernel
  obtain ⟨final, hrun, hfinal⟩ := Option.map_eq_some_iff.mp hruns
  obtain ⟨hlive, hplace⟩ := of_decide_eq_true hfinal
  exact ⟨final, hrun, _, .object true 1 hlive, hplace⟩

theorem descends_of_run_sample :
    ∃ place : Place, place.ratings.lookup "boris" = some 1 ∧
      ∃ (old : Place) (calls : List (Option String × Call)), sampleNetwork.Copy old ∧
        old.key = "boyana" ∧
        (calls.map fun call ↦ ("boyana", call)).Sublist
          [("boyana", some "ana", .visit), ("boyana", some "boris", .visit),
            ("boyana", some "boris", .rate 1)] ∧
        place.withoutImages = (calls.foldl Places.perform old).withoutImages := by
  obtain ⟨final, hrun, place, hcopy, hkey, _, hrating, _⟩ := exists_copy_sampleCalls
  have hcalls : callsOf sampleDistance sampleNetwork sampleCalls =
      [("boyana", some "ana", .visit), ("boyana", some "boris", .visit),
        ("boyana", some "boris", .rate 1)] := by
    decide +kernel
  obtain ⟨old, calls, hold, hsame, hsublist, hplace⟩ :=
    descends_of_run sampleDistance ready_sampleNetwork live_sampleCalls hrun hcopy
  rw [hkey] at hsame hsublist
  exact ⟨place, hrating, old, calls, hold, hsame, hcalls ▸ hsublist, hplace⟩

/-- Assumes: well formed stores, writes under way that encode places, and a run whose calls are made
on objects that have been allocated. Every copy after the run has a copy at the start with the same
key, name, description, coordinates, number of visits and image names, whose visitors its visitors
begin with, and whose ratings are by users who have a rating in it. -/
theorem frame_of_run (hready : start.Ready)
    (hlive : PartialRun.Guarded (step distanceBetween) Live start actions)
    (hrun : PartialRun.run (step distanceBetween) start actions = some final)
    (hcopy : final.Copy place) :
    ∃ old, start.Copy old ∧ place.details = old.details ∧ old.visitors <+: place.visitors ∧
      old.ratings.keys ⊆ place.ratings.keys := by
  obtain ⟨old, calls, hold, _, hplace⟩ := descent_of_copy distanceBetween hready hlive hrun hcopy
  refine ⟨old, hold, ?_, ?_, ?_⟩
  · rw [Place.details_eq_of_withoutImages hplace, Places.details_foldl_perform]
  · rw [Place.visitors_eq_of_withoutImages hplace]
    exact Places.visitors_foldl_perform old calls
  · rw [Place.ratings_eq_of_withoutImages hplace]
    exact Places.keys_foldl_perform old calls

theorem frame_of_run_sample :
    ∃ place : Place,
      place.ratings.lookup "boris" = some 1 ∧ place.details = samplePlace.details := by
  obtain ⟨final, hrun, place, hcopy, _, _, hrating, _⟩ := exists_copy_sampleCalls
  obtain ⟨old, hold, hdetails, _⟩ :=
    frame_of_run sampleDistance ready_sampleNetwork live_sampleCalls hrun hcopy
  rw [eq_samplePlace_of_copy hold] at hdetails
  exact ⟨place, hrating, hdetails⟩

/-- Assumes: well formed stores, writes under way that encode places, and a run whose calls are made
on objects that have been allocated. A visitor that a copy lists after the run was listed by a copy
of the place at the start, or is the caller of a visit to the place in the run, under the uid of the
caller or a name made up. A rating that it has is one that a copy of the place had under the same
name at the start, or one that a call of the run has submitted for the place under that name. -/
theorem provenance_of_run (hready : start.Ready)
    (hlive : PartialRun.Guarded (step distanceBetween) Live start actions)
    (hrun : PartialRun.run (step distanceBetween) start actions = some final)
    (hcopy : final.Copy place) :
    (∀ name ∈ place.visitors,
      (∃ old, start.Copy old ∧ old.key = place.key ∧ name ∈ old.visitors) ∨
      ∃ caller, (place.key, caller, .visit) ∈ callsOf distanceBetween start actions ∧
        VisitsAs caller name) ∧
    ∀ name rating, place.ratings.lookup name = some rating →
      (∃ old, start.Copy old ∧ old.key = place.key ∧ old.ratings.lookup name = some rating) ∨
      ∃ caller, (place.key, caller, .rate rating) ∈ callsOf distanceBetween start actions ∧
        RatesAs caller name := by
  obtain ⟨old, calls, hold, hcalls, hplace⟩ :=
    descent_of_copy distanceBetween hready hlive hrun hcopy
  have hkey := Place.key_eq_of_withoutImages hplace
  rw [Places.key_foldl_perform] at hkey
  have hmade {call : Option String × Call} (hcall : call ∈ calls) :
      (place.key, call) ∈ callsOf distanceBetween start actions :=
    hcalls.subset (List.mem_map_of_mem hcall)
  refine ⟨fun name hname ↦ ?_, fun name rating hrating ↦ ?_⟩
  · rw [Place.visitors_eq_of_withoutImages hplace] at hname
    exact (Places.mem_visitors_foldl_perform hname).imp (fun hmem ↦ ⟨old, hold, hkey.symm, hmem⟩)
      fun ⟨caller, hcall, has⟩ ↦ ⟨caller, hmade hcall, has⟩
  · rw [Place.ratings_eq_of_withoutImages hplace] at hrating
    exact (Places.lookup_ratings_foldl_perform hrating).imp
      (fun hlookup ↦ ⟨old, hold, hkey.symm, hlookup⟩)
      fun ⟨caller, hcall, has⟩ ↦ ⟨caller, hmade hcall, has⟩

theorem provenance_of_run_sample :
    ∃ caller, ("boyana", caller, .rate 1) ∈ callsOf sampleDistance sampleNetwork sampleCalls ∧
      RatesAs caller "boris" := by
  obtain ⟨final, hrun, place, hcopy, hkey, _, hrating, _⟩ := exists_copy_sampleCalls
  have hprovenance :=
    (provenance_of_run sampleDistance ready_sampleNetwork live_sampleCalls hrun hcopy).2
      "boris" 1 hrating
  rw [hkey] at hprovenance
  refine hprovenance.resolve_left ?_
  rintro ⟨old, hold, _, hlookup⟩
  rw [eq_samplePlace_of_copy hold] at hlookup
  cases hlookup

/-- Assumes: well formed stores, writes under way that encode places, copies that list no visitor
twice, and a run whose calls are made on objects that have been allocated, by callers who may be
signed in or not. No copy lists a visitor twice after the run. -/
theorem nodup_visitors_of_run (hready : start.Ready)
    (hnodup : ∀ old, start.Copy old → old.visitors.Nodup)
    (hlive : PartialRun.Guarded (step distanceBetween) Live start actions)
    (hrun : PartialRun.run (step distanceBetween) start actions = some final)
    (hcopy : final.Copy place) : place.visitors.Nodup := by
  obtain ⟨old, calls, hold, _, hplace⟩ := descent_of_copy distanceBetween hready hlive hrun hcopy
  rw [Place.visitors_eq_of_withoutImages hplace]
  exact Places.nodup_visitors_foldl_perform (hnodup old hold)

theorem nodup_visitors_of_run_sample :
    ∃ place : Place, place.visitors = ["boris"] ∧ place.visitors.Nodup := by
  obtain ⟨final, hrun, place, hcopy, _, hvisitors, _⟩ := exists_copy_sampleCalls
  refine ⟨place, hvisitors, nodup_visitors_of_run sampleDistance ready_sampleNetwork
    (fun old hold ↦ ?_) live_sampleCalls hrun hcopy⟩
  rw [eq_samplePlace_of_copy hold]
  exact List.nodup_nil

/-- Assumes: well formed stores, writes under way that encode places, copies whose rating is the
mean of ratings between two bounds, and a run whose calls are made on objects that have been
allocated and submit ratings between the bounds. After the run the rating of every copy is 0 or
between the bounds. -/
theorem rating_mem_of_run {low high : ℤ} (hready : start.Ready)
    (hmeans : ∀ old, start.Copy old → old.RatingIsMean)
    (hbounds : ∀ old, start.Copy old → ∀ name value, old.ratings.lookup name = some value →
      low ≤ value ∧ value ≤ high)
    (hsubmitted : ∀ client ref rating, .rate client ref rating ∈ actions →
      low ≤ rating ∧ rating ≤ high)
    (hlive : PartialRun.Guarded (step distanceBetween) Live start actions)
    (hrun : PartialRun.run (step distanceBetween) start actions = some final)
    (hcopy : final.Copy place) :
    place.rating = 0 ∨ (low : ℚ) ≤ place.rating ∧ place.rating ≤ high := by
  obtain ⟨old, calls, hold, hcalls, hplace⟩ :=
    descent_of_copy distanceBetween hready hlive hrun hcopy
  have hmean : place.RatingIsMean := by
    rw [← Place.ratingIsMean_withoutImages, hplace, Place.ratingIsMean_withoutImages]
    exact Places.ratingIsMean_foldl_perform (hmeans old hold)
  refine Place.rating_mem_of_ratings hmean fun name value hvalue ↦ ?_
  rw [Place.ratings_eq_of_withoutImages hplace] at hvalue
  rcases Places.lookup_ratings_foldl_perform hvalue with hbefore | ⟨caller, hcall, _⟩
  · exact hbounds old hold name value hbefore
  · obtain ⟨client, ref, haction⟩ :=
      exists_rate_of_mem_callsOf distanceBetween (hcalls.subset (List.mem_map_of_mem hcall))
    exact hsubmitted client ref value haction

theorem rating_mem_of_run_sample :
    ∃ place : Place, place.ratings.lookup "boris" = some 1 ∧
      (place.rating = 0 ∨ ((1 : ℤ) : ℚ) ≤ place.rating ∧ place.rating ≤ (5 : ℤ)) := by
  obtain ⟨final, hrun, place, hcopy, _, _, hrating, _⟩ := exists_copy_sampleCalls
  have hmeans (old : Place) (hold : sampleNetwork.Copy old) : old.RatingIsMean := by
    rw [eq_samplePlace_of_copy hold]
    rfl
  have hbounds (old : Place) (hold : sampleNetwork.Copy old) (name : String) (value : ℤ)
      (hvalue : old.ratings.lookup name = some value) : 1 ≤ value ∧ value ≤ 5 := by
    rw [eq_samplePlace_of_copy hold] at hvalue
    cases hvalue
  have hsubmitted (client : Bool) (ref : Ref) (rating : ℤ)
      (hmem : .rate client ref rating ∈ sampleCalls) : 1 ≤ rating ∧ rating ≤ 5 := by
    simp only [sampleCalls, List.mem_cons, Action.rate.injEq, List.not_mem_nil, reduceCtorEq,
      or_false, false_or] at hmem
    omega
  exact ⟨place, hrating, rating_mem_of_run sampleDistance ready_sampleNetwork hmeans hbounds
    hsubmitted live_sampleCalls hrun hcopy⟩

end Network

end BeenHere
