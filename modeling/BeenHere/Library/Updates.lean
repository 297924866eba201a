import BeenHere.Library.Dictionary
import Mathlib.Algebra.Field.Basic
import Mathlib.Algebra.Order.BigOperators.Group.Multiset
import Mathlib.Algebra.Order.Field.Basic
import Mathlib.Data.Finset.Max

/-!
# Sequences of updates

A sequence of pairs that is inserted into a dictionary, oldest first. What the dictionary maps a key
to afterwards depends only on the pairs with that key (`lookup_insertAll`), so two sequences that
agree key by key give one dictionary (`insertAll_congr`), however the pairs of different keys are
interleaved. The last section bounds the mean of a multiset by its elements.
-/

set_option autoImplicit false
set_option relaxedAutoImplicit false

namespace Dictionary

variable {Key Value : Type*} [DecidableEq Key]

/-- Inserts the pairs, oldest first. -/
def insertAll (entries : Dictionary Key Value) (updates : List (Key × Value)) :
    Dictionary Key Value :=
  updates.foldl (fun entries update ↦ entries.insert update.1 update.2) entries

/-- The updates of one key, in their order. -/
def updatesOf (key : Key) (updates : List (Key × Value)) : List (Key × Value) :=
  updates.filter fun update ↦ update.1 = key

/-- The value that the last update of a key gives it, if the key is updated. -/
def lastValue (key : Key) (updates : List (Key × Value)) : Option Value :=
  (updatesOf key updates).getLast?.map Prod.snd

theorem insertAll_concat (entries : Dictionary Key Value) (updates : List (Key × Value))
    (last : Key × Value) :
    entries.insertAll (updates ++ [last]) = (entries.insertAll updates).insert last.1 last.2 :=
  List.foldl_concat ..

theorem lastValue_concat_self (updates : List (Key × Value)) (last : Key × Value) :
    lastValue last.1 (updates ++ [last]) = some last.2 := by
  rw [lastValue, updatesOf, List.filter_append, List.filter_cons_of_pos (by simp)]
  simp

theorem lastValue_concat_of_ne {key : Key} (updates : List (Key × Value)) {last : Key × Value}
    (hne : key ≠ last.1) : lastValue key (updates ++ [last]) = lastValue key updates := by
  rw [lastValue, updatesOf, List.filter_append, List.filter_cons_of_neg (by simpa using hne.symm),
    List.filter_nil, List.append_nil]
  rfl

/-- After the updates a key has the value of its last update, or else its old value. -/
theorem lookup_insertAll (entries : Dictionary Key Value) (updates : List (Key × Value))
    (key : Key) :
    (entries.insertAll updates).lookup key = (lastValue key updates).or (entries.lookup key) := by
  induction updates using List.reverseRecOn with
  | nil => rfl
  | append_singleton rest last ih =>
    rw [insertAll_concat]
    by_cases hkey : key = last.1
    · rw [hkey, Finmap.lookup_insert, lastValue_concat_self, Option.some_or]
    · rw [Finmap.lookup_insert_of_ne _ hkey, lastValue_concat_of_ne rest hkey, ih]

/-- Assumes: two sequences with the same updates of each key, in the same order. They give the
same dictionary. -/
theorem insertAll_congr {first second : List (Key × Value)}
    (horder : ∀ key, updatesOf key first = updatesOf key second)
    (entries : Dictionary Key Value) : entries.insertAll first = entries.insertAll second :=
  Finmap.ext_lookup fun key ↦ by
    rw [lookup_insertAll, lookup_insertAll, lastValue, lastValue, horder key]

/-- Assumes: two sequences with the same updates of each key. If one of them is empty, so is the
other. -/
theorem eq_nil_of_updatesOf {first second : List (Key × Value)}
    (horder : ∀ key, updatesOf key first = updatesOf key second) (hfirst : first = []) :
    second = [] := by
  refine List.eq_nil_iff_forall_not_mem.mpr fun update hupdate ↦ ?_
  have hmem : update ∈ updatesOf update.1 second :=
    List.mem_filter.mpr ⟨hupdate, decide_eq_true rfl⟩
  rw [← horder, hfirst] at hmem
  exact List.not_mem_nil hmem

end Dictionary

/-! ### The mean -/

section Mean

variable {K : Type*} [Field K] [LinearOrder K] [IsStrictOrderedRing K] {values : Multiset K}
variable {bound : K}

theorem le_mean (hne : values ≠ 0) (hbound : ∀ value ∈ values, bound ≤ value) :
    bound ≤ values.sum / values.card := by
  have hcard : (0 : K) < values.card := Nat.cast_pos.mpr (Multiset.card_pos.mpr hne)
  rw [le_div_iff₀ hcard, mul_comm, ← nsmul_eq_mul]
  exact Multiset.card_nsmul_le_sum hbound

theorem mean_le (hne : values ≠ 0) (hbound : ∀ value ∈ values, value ≤ bound) :
    values.sum / values.card ≤ bound := by
  have hcard : (0 : K) < values.card := Nat.cast_pos.mpr (Multiset.card_pos.mpr hne)
  rw [div_le_iff₀ hcard, mul_comm, ← nsmul_eq_mul]
  exact Multiset.sum_le_card_nsmul _ _ hbound

/-- The mean lies between the least and the greatest element. -/
theorem exists_mean_mem (hne : values ≠ 0) :
    ∃ least ∈ values, ∃ greatest ∈ values,
      (∀ value ∈ values, least ≤ value ∧ value ≤ greatest) ∧
      least ≤ values.sum / values.card ∧ values.sum / values.card ≤ greatest := by
  obtain ⟨least, hleast, hlow⟩ := Multiset.exists_min_image id hne
  obtain ⟨greatest, hgreatest, hhigh⟩ := Multiset.exists_max_image id hne
  exact ⟨least, hleast, greatest, hgreatest, fun value hvalue ↦
    ⟨hlow value hvalue, hhigh value hvalue⟩, le_mean hne hlow, mean_le hne hhigh⟩

end Mean
