import BeenHere.Library.Updates
import BeenHere.PlaceRecord

/-!
# The ratings of a place

A sequence of `Place.rate` calls is a sequence of updates of the ratings, after which the rating is
computed anew. So two interleavings of the same calls end in the same ratings and the same rating,
which is the mean over the entries (`ratings_of_calls`).
-/

set_option autoImplicit false
set_option relaxedAutoImplicit false

namespace BeenHere

namespace Place

open Dictionary

/-- The place after the calls `rate(username:rating:)`, oldest first. -/
def rateAll (place : Place) (calls : List (String × ℤ)) : Place :=
  calls.foldl (fun place call ↦ place.rate call.1 call.2) place

theorem rateAll_concat (place : Place) (calls : List (String × ℤ)) (last : String × ℤ) :
    place.rateAll (calls ++ [last]) = (place.rateAll calls).rate last.1 last.2 :=
  List.foldl_concat ..

theorem ratings_rateAll (place : Place) (calls : List (String × ℤ)) :
    (place.rateAll calls).ratings = insertAll place.ratings calls := by
  induction calls using List.reverseRecOn with
  | nil => rfl
  | append_singleton rest last ih => rw [rateAll_concat, ratings_rate, insertAll_concat, ih]

/-- After at least one call the rating is the one that the ratings give. -/
theorem rating_rateAll (place : Place) {calls : List (String × ℤ)} (hcalls : calls ≠ []) :
    (place.rateAll calls).rating = (place.rateAll calls).calculateRating := by
  obtain ⟨rest, last, rfl⟩ := List.eq_nil_or_concat' calls |>.resolve_left hcalls
  rw [rateAll_concat]
  exact rating_rate ..

/-- After at least one call there is an entry. -/
theorem values_rateAll_ne_zero (place : Place) {calls : List (String × ℤ)} (hcalls : calls ≠ []) :
    (place.rateAll calls).ratings.values ≠ 0 := by
  obtain ⟨rest, last, rfl⟩ := List.eq_nil_or_concat' calls |>.resolve_left hcalls
  rw [rateAll_concat, ratings_rate]
  have hlast : last.2 ∈ values ((place.rateAll rest).ratings.insert last.1 last.2) :=
    mem_values_iff.mpr ⟨last.1, Finmap.lookup_insert _⟩
  exact fun hzero ↦ Multiset.notMem_zero _ (hzero ▸ hlast)

/-- Places with the same ratings have the same mean. -/
theorem calculateRating_congr {first second : Place} (h : first.ratings = second.ratings) :
    first.calculateRating = second.calculateRating := by
  rw [calculateRating, calculateRating, h]

/-- The mean over the entries, in whatever order the dictionary enumerates their values. -/
theorem calculateRating_of_enumeration {place : Place} (hne : place.ratings.values ≠ 0)
    {enumeration : List ℤ} (henumeration : (enumeration : Multiset ℤ) = place.ratings.values) :
    place.calculateRating =
      (enumeration.foldl (fun sum value ↦ sum + value) 0 : ℤ) / enumeration.length := by
  have hcard := Multiset.card_pos.mpr hne
  rw [card_values] at hcard
  have hsum : enumeration.foldl (fun sum value ↦ sum + value) 0 = place.ratings.values.sum := by
    rw [← henumeration, Multiset.sum_coe, List.sum_eq_foldl]
  have hlength : enumeration.length = place.ratings.keys.card := by
    rw [← card_values, ← henumeration, Multiset.coe_card]
  rw [calculateRating, if_pos hcard, hsum, hlength]

/-- The mean lies between the smallest and the largest entry. -/
theorem exists_calculateRating_mem {place : Place} (hne : place.ratings.values ≠ 0) :
    ∃ least ∈ place.ratings.values, ∃ greatest ∈ place.ratings.values,
      (∀ value ∈ place.ratings.values, least ≤ value ∧ value ≤ greatest) ∧
      least ≤ place.calculateRating ∧ place.calculateRating ≤ greatest := by
  have hcard := Multiset.card_pos.mpr hne
  rw [card_values] at hcard
  have hmean : place.calculateRating =
      (place.ratings.values.map (Int.cast : ℤ → ℚ)).sum /
        (place.ratings.values.map (Int.cast : ℤ → ℚ)).card := by
    rw [calculateRating, if_pos hcard, Multiset.card_map, card_values, Int.cast_multiset_sum]
  have hmap : place.ratings.values.map (Int.cast : ℤ → ℚ) ≠ 0 := by
    rwa [Ne, Multiset.map_eq_zero]
  obtain ⟨_, hfirst, _, hlast, hbounds, hlow, hhigh⟩ := exists_mean_mem hmap
  obtain ⟨least, hleast, rfl⟩ := Multiset.mem_map.mp hfirst
  obtain ⟨greatest, hgreatest, rfl⟩ := Multiset.mem_map.mp hlast
  rw [← hmean] at hlow hhigh
  refine ⟨least, hleast, greatest, hgreatest, fun value hvalue ↦ ?_, hlow, hhigh⟩
  exact (hbounds value (Multiset.mem_map_of_mem _ hvalue)).imp Int.cast_le.mp Int.cast_le.mp

/-- The order of the ratings of different users does not matter. Assumes: two sequences of calls,
not empty, with the same calls of each username in the same order, so that one is a permutation of
the other. The final ratings and the final rating are equal, each username has the last value that
it gave or else its old value, and the rating is the mean over the entries in any order, between the
smallest and the largest of them. -/
theorem ratings_of_calls {calls reordered : List (String × ℤ)} (hcalls : calls ≠ [])
    (horder : ∀ username,
      calls.filter (fun call ↦ call.1 = username) =
        reordered.filter fun call ↦ call.1 = username)
    (start : Place) :
    (start.rateAll calls).ratings = (start.rateAll reordered).ratings ∧
    (start.rateAll calls).rating = (start.rateAll reordered).rating ∧
    (∀ username, (start.rateAll calls).ratings.lookup username =
      ((calls.filter fun call ↦ call.1 = username).getLast?.map Prod.snd).or
        (start.ratings.lookup username)) ∧
    (∀ enumeration : List ℤ, (enumeration : Multiset ℤ) = (start.rateAll calls).ratings.values →
      (start.rateAll calls).rating =
        (enumeration.foldl (fun sum value ↦ sum + value) 0 : ℤ) / enumeration.length) ∧
    ∃ least ∈ (start.rateAll calls).ratings.values,
      ∃ greatest ∈ (start.rateAll calls).ratings.values,
        (∀ value ∈ (start.rateAll calls).ratings.values, least ≤ value ∧ value ≤ greatest) ∧
        least ≤ (start.rateAll calls).rating ∧ (start.rateAll calls).rating ≤ greatest := by
  have hreordered : reordered ≠ [] := fun hnil ↦
    hcalls (eq_nil_of_updatesOf (fun username ↦ (horder username).symm) hnil)
  have hratings : (start.rateAll calls).ratings = (start.rateAll reordered).ratings := by
    rw [ratings_rateAll, ratings_rateAll, insertAll_congr horder]
  have hne := start.values_rateAll_ne_zero hcalls
  have hrating := start.rating_rateAll hcalls
  refine ⟨hratings, ?_, fun username ↦ ?_, fun enumeration henumeration ↦ ?_, ?_⟩
  · rw [hrating, start.rating_rateAll hreordered]
    exact calculateRating_congr hratings
  · rw [ratings_rateAll]
    exact lookup_insertAll ..
  · rw [hrating]
    exact calculateRating_of_enumeration hne henumeration
  · rw [hrating]
    exact exists_calculateRating_mem hne

/-- Two users who rate in turns, one of them twice. -/
theorem ratings_of_calls_sample :
    (samplePlace.rateAll [("ana", 2), ("boris", 5), ("ana", 4)]).rating =
      (samplePlace.rateAll [("ana", 2), ("ana", 4), ("boris", 5)]).rating := by
  have horder : ∀ username,
      [("ana", (2 : ℤ)), ("boris", 5), ("ana", 4)].filter (fun call ↦ call.1 = username) =
        [("ana", 2), ("ana", 4), ("boris", 5)].filter fun call ↦ call.1 = username := by
    intro username
    by_cases hana : "ana" = username
    · subst hana
      decide
    · simp [List.filter_cons, hana]
  exact (ratings_of_calls (List.cons_ne_nil _ _) horder samplePlace).2.1

end Place

end BeenHere
