import BeenHere.Place

/-!
# Places and their records

Two laws tie a place to its record. A place is written and read back as itself exactly when the
names in its ratings are not the indices of an array (`roundTrip_iff`). The names that
`Places.rate` makes up for callers who are not signed in are such indices, `1`, `2` and so on,
where `Places.visit` makes up `Anonymous1`, `Anonymous2`: two ratings without signing in are enough
to make the record undecodable (`roundTrip_counterexample`). Writing a decoded place back after one
call changes nothing in the record but what the call is about, the stored key, and the booleans that
the app has read as numbers (`updateChildValues_frame`).
-/

set_option autoImplicit false
set_option relaxedAutoImplicit false

namespace BeenHere

open Firebase Place

/-! ### Histories of calls -/

/-- A call on a place: `Places.visit`, or `Places.rate` with a number of stars. -/
inductive Call
  | visit
  | rate (rating : ℤ)
  deriving DecidableEq

/-- The place after one call by a caller, signed in or not. -/
def Places.perform (place : Place) : Option String × Call → Place
  | (currentUser, .visit) => (visit currentUser place).2
  | (currentUser, .rate rating) => rate currentUser place rating

theorem Places.key_perform (place : Place) (call : Option String × Call) :
    (perform place call).key = place.key := by
  obtain ⟨currentUser, call⟩ := call
  cases call with
  | visit => exact key_visit ..
  | rate rating => exact key_rate ..

theorem Places.key_foldl_perform (calls : List (Option String × Call)) (place : Place) :
    (calls.foldl perform place).key = place.key := by
  induction calls generalizing place with
  | nil => rfl
  | cons call rest ih => exact (ih _).trans (key_perform place call)

/-! ### The round trip -/

/-- Assumes: a place decoded under a key. After any calls on it, by callers signed in or not,
writing the place over any record of the node and decoding the node gives the place back, image
data aside, precisely when the names in its ratings are not the indices of an array. -/
theorem roundTrip_iff {dictionary : Children Value} {key : String} {start : Place}
    (hstart : placeFromDictionary dictionary key = some start)
    (calls : List (Option String × Call)) (record : Record) :
    (∃ decoded,
      placeFromDictionary
        (record.updateChildValues
          (dictionaryFromPlace (calls.foldl Places.perform start))).snapshot key = some decoded ∧
      decoded.withoutImages = (calls.foldl Places.perform start).withoutImages) ↔
    ∀ max, ¬ ArrayKeys (calls.foldl Places.perform start).ratings.keys max := by
  have hkey : (calls.foldl Places.perform start).key = key :=
    (Places.key_foldl_perform calls start).trans (decodes_iff.mp hstart).key
  have hnone : maxIndex? (calls.foldl Places.perform start).ratings.keys = none ↔
      ∀ max, ¬ ArrayKeys (calls.foldl Places.perform start).ratings.keys max := by
    simp only [Option.eq_none_iff_forall_ne_some, ne_eq, maxIndex?_eq_some_iff]
  rw [placeFromDictionary_updateChildValues, ← hnone]
  constructor
  · rintro ⟨decoded, hdecoded, _⟩
    by_contra hmax
    rw [if_neg hmax] at hdecoded
    cases hdecoded
  · intro hmax
    rw [if_pos hmax]
    exact ⟨_, rfl, by rw [← hkey]; rfl⟩

/-- A place with one image, no visitors and no ratings. -/
def samplePlace : Place :=
  { init with placeName := "Boyana Waterfall", key := "boyana", info := "Vitosha", latitude := 42,
              longitude := 23, imageNames := ["boyana.jpg"] }

/-- The record of `samplePlace`. -/
def sampleRecord : Record := Record.absent.updateChildValues (dictionaryFromPlace samplePlace)

theorem roundTrip_iff_sample :
    (∃ decoded,
      placeFromDictionary
        (sampleRecord.updateChildValues
          (dictionaryFromPlace (Places.perform samplePlace (some "ana", .rate 4)))).snapshot
        "boyana" = some decoded ∧
      decoded.withoutImages = (Places.perform samplePlace (some "ana", .rate 4)).withoutImages) ↔
    ∀ max, ¬ ArrayKeys (Places.perform samplePlace (some "ana", .rate 4)).ratings.keys max :=
  have hstart : placeFromDictionary sampleRecord.snapshot "boyana" = some samplePlace := by
    decide +kernel
  roundTrip_iff hstart [(some "ana", .rate 4)] sampleRecord

/-- Two callers who are not signed in rate a place. It has an image and is decodable; written back
it is not. -/
theorem roundTrip_counterexample :
    placeFromDictionary sampleRecord.snapshot "boyana" = some samplePlace ∧
      ([(none, .rate 4), (none, .rate 3)].foldl Places.perform samplePlace).imageNames ≠ [] ∧
      placeFromDictionary
        (sampleRecord.updateChildValues (dictionaryFromPlace
          ([(none, .rate 4), (none, .rate 3)].foldl Places.perform samplePlace))).snapshot
        "boyana" = none := by
  decide +kernel

/-! ### What a written record says about a user -/

theorem mem_values_arrayChildren {texts : List String} {text : String} :
    Scalar.string text ∈ (arrayChildren (strings texts)).values ↔ text ∈ texts := by
  simp only [Dictionary.mem_values_iff, lookup_arrayChildren, strings, List.getElem?_map,
    Option.map_eq_some_iff, List.mem_iff_getElem?, Option.some.injEq]
  constructor
  · rintro ⟨_, index, _, other, hother, hsame⟩
    exact ⟨index, by rw [hother, Scalar.string.inj hsame]⟩
  · rintro ⟨index, hindex⟩
    exact ⟨_, index, rfl, text, hindex, rfl⟩

/-- A record that stores an array of visitors lists them. -/
theorem listsVisitor_iff {record : Record} {visitors : List String}
    (h : record.child "visitors" = (Value.array (strings visitors)).stored) (user : String) :
    record.listsVisitor user = true ↔ user ∈ visitors := by
  rw [Record.listsVisitor, h]
  by_cases hempty : visitors = []
  · rw [hempty]
    simp [strings, Value.stored, arrayChildren, arrayChildrenFrom]
  · rw [Value.stored, if_neg (arrayChildren_strings_ne_empty hempty)]
    simp only [decide_eq_true_eq, mem_values_arrayChildren]

/-- A record that stores a dictionary of ratings maps each user to the rating. -/
theorem ratingOf_eq {record : Record} {ratings : Dictionary String ℤ}
    (h : record.child "ratings" = (Value.dictionary (integers ratings)).stored) (user : String) :
    record.ratingOf user = (ratings.lookup user).map fun rating : ℤ ↦ .number rating := by
  rw [Record.ratingOf, h]
  by_cases hempty : ratings = ∅
  · rw [hempty]
    rfl
  · have hstored : integers ratings ≠ ∅ := fun h ↦
      hempty (Dictionary.mapValues_eq_empty_iff.mp h)
    rw [Value.stored, if_neg hstored]
    exact Dictionary.lookup_mapValues ..

theorem listsVisitor_updateChildValues (record : Record) (place : Place) (user : String) :
    (record.updateChildValues (dictionaryFromPlace place)).listsVisitor user = true ↔
      user ∈ place.visitors :=
  listsVisitor_iff (Record.child_updateChildValues_of_some rfl) user

theorem ratingOf_updateChildValues (record : Record) (place : Place) (user : String) :
    (record.updateChildValues (dictionaryFromPlace place)).ratingOf user =
      (place.ratings.lookup user).map fun rating : ℤ ↦ .number rating :=
  ratingOf_eq (Record.child_updateChildValues_of_some rfl) user

/-! ### The frame of a write -/

theorem dictionaryFromPlace_visitors (place : Place) (visitors : List String) {name : String}
    (hname : name ≠ "visitors") :
    dictionaryFromPlace { place with visitors := visitors } name =
      dictionaryFromPlace place name := by
  unfold dictionaryFromPlace
  split <;> simp_all

theorem dictionaryFromPlace_rate (place : Place) (username : String) (rating : ℤ) {name : String}
    (hratings : name ≠ "ratings") (hrating : name ≠ "rating") :
    dictionaryFromPlace (place.rate username rating) name = dictionaryFromPlace place name := by
  unfold dictionaryFromPlace
  split <;> simp_all [rate]

/-- What is read as a number is written. -/
theorem notMem_numericNames {place : Place} {name : String}
    (h : dictionaryFromPlace place name = none) : name ∉ numericNames := by
  intro hname
  have hcases : name = "rating" ∨ name = "lat" ∨ name = "lon" ∨ name = "visits" ∨
      name = "ratings" := by
    simpa [numericNames] using hname
  rcases hcases with rfl | rfl | rfl | rfl | rfl <;> cases h

/-- Writing a decoded place back restores every child but the stored key, up to the booleans that
are read as numbers. -/
theorem child_updateChildValues_of_eq {record : Record} {key : String} {place changed : Place}
    (h : Decodes record.snapshot key place) {name : String} (hname : name ≠ "key")
    (hsame : dictionaryFromPlace changed name = dictionaryFromPlace place name) :
    (record.updateChildValues (dictionaryFromPlace changed)).child name =
      unboxedChildren record name := by
  cases hvalue : dictionaryFromPlace place name with
  | none =>
    rw [Record.child_updateChildValues_of_none (hsame.trans hvalue), unboxedChildren,
      if_neg (notMem_numericNames hvalue)]
  | some value =>
    rw [Record.child_updateChildValues_of_some (hsame.trans hvalue),
      unboxedChildren_of_decodes h hvalue hname]

/-- The frame of a write. Assumes: a record that is decoded under its node key, with any further
children. Where the record has a boolean in a child that is read as a number, or in its ratings,
every write puts the number in its place; with that, after a visit under a name not yet in the
visitors, and the write of the place, the record is as before except for that name at the end of
`visitors` and the node key in `key`. After a rating by a user who is signed in, and the write, it
is as before except that `ratings` maps the user to the new value, `rating` is the mean of the new
ratings and `key` holds the node key. A record without such booleans is just as before. -/
theorem updateChildValues_frame {record : Record} {key : String} {place : Place}
    (hdecode : placeFromDictionary record.snapshot key = some place) :
    (∀ currentUser, Places.visitName currentUser place ∉ place.visitors →
      (Places.visit currentUser place).1 = true ∧
      (record.updateChildValues
          (dictionaryFromPlace (Places.visit currentUser place).2)).child =
        Function.update
          (Function.update (unboxedChildren record) "visitors"
            (Value.array
              (strings (place.visitors ++ [Places.visitName currentUser place]))).stored)
          "key" (some (.leaf (.string key)))) ∧
    (∀ uid rating,
      (record.updateChildValues
          (dictionaryFromPlace (Places.rate (some uid) place rating))).child =
        Function.update
          (Function.update
            (Function.update (unboxedChildren record) "ratings"
              (Value.dictionary (integers (place.ratings.insert uid rating))).stored)
            "rating"
            (some (.leaf (.number
              ((Dictionary.values (place.ratings.insert uid rating)).sum /
                (place.ratings.insert uid rating).keys.card)))))
          "key" (some (.leaf (.string key)))) ∧
    ((∀ name ∈ numericNames, ∀ node, record.child name = some node → ¬ node.HasBoolean) →
      unboxedChildren record = record.child) := by
  have h := decodes_iff.mp hdecode
  have hstoredKey : (Value.scalar (.string place.key)).stored = some (.leaf (.string key)) := by
    rw [h.key]
    rfl
  refine ⟨?_, ?_, unboxedChildren_eq_self⟩
  · intro currentUser hfresh
    rw [Places.visit_of_notMem hfresh]
    refine ⟨rfl, funext fun name ↦ ?_⟩
    by_cases hkey : name = "key"
    · rw [hkey, Function.update_self, ← hstoredKey]
      rfl
    rw [Function.update_of_ne hkey]
    by_cases hvisitors : name = "visitors"
    · rw [hvisitors, Function.update_self]
      rfl
    · rw [Function.update_of_ne hvisitors]
      exact child_updateChildValues_of_eq h hkey (dictionaryFromPlace_visitors place _ hvisitors)
  · intro uid rating
    have hpos : (place.ratings.insert uid rating).keys.card > 0 :=
      Finset.card_pos.mpr ⟨uid, Finmap.mem_keys.mpr (Finmap.mem_insert.mpr (Or.inl rfl))⟩
    have hmean : (place.rate uid rating).rating =
        (Dictionary.values (place.ratings.insert uid rating)).sum /
          (place.ratings.insert uid rating).keys.card := by
      rw [rating_rate, calculateRating, ratings_rate, if_pos hpos]
    funext name
    by_cases hkey : name = "key"
    · rw [hkey, Function.update_self, ← hstoredKey]
      rfl
    rw [Function.update_of_ne hkey]
    by_cases hrating : name = "rating"
    · rw [hrating, Function.update_self, ← hmean]
      rfl
    rw [Function.update_of_ne hrating]
    by_cases hratings : name = "ratings"
    · rw [hratings, Function.update_self]
      rfl
    · rw [Function.update_of_ne hratings]
      exact child_updateChildValues_of_eq h hkey
        (dictionaryFromPlace_rate place uid rating hratings hrating)

theorem updateChildValues_frame_sample :
    (sampleRecord.updateChildValues
        (dictionaryFromPlace (Places.visit none samplePlace).2)).child =
      Function.update
        (Function.update sampleRecord.child "visitors"
          (Value.array (strings ["Anonymous1"])).stored)
        "key" (some (.leaf (.string "boyana"))) := by
  have hdecode : placeFromDictionary sampleRecord.snapshot "boyana" = some samplePlace := by
    decide +kernel
  have hnumbers : ∀ name ∈ numericNames, ∀ node, sampleRecord.child name = some node →
      ¬ node.HasBoolean := by
    have hleaves : sampleRecord.child "rating" = some (.leaf (.number 0)) ∧
        sampleRecord.child "lat" = some (.leaf (.number 42)) ∧
        sampleRecord.child "lon" = some (.leaf (.number 23)) ∧
        sampleRecord.child "visits" = some (.leaf (.number 0)) ∧
        sampleRecord.child "ratings" = none := by
      decide +kernel
    simp [numericNames, hleaves, Node.HasBoolean]
  obtain ⟨hvisit, _, hsame⟩ := updateChildValues_frame hdecode
  rw [(hvisit none (by decide)).2, hsame hnumbers]
  rfl

/-- The record of a place whose visits are a boolean. -/
def booleanRecord : Record :=
  sampleRecord.updateChildValues
    (Function.update (fun _ ↦ none) "visits" (some (.scalar (.boolean true))))

/-- The visits are read as 1, and a visit writes that number in the place of the boolean. -/
theorem updateChildValues_frame_counterexample :
    placeFromDictionary booleanRecord.snapshot "boyana" = some { samplePlace with visits := 1 } ∧
      Places.visitName (some "ana") { samplePlace with visits := 1 } ∉ samplePlace.visitors ∧
      booleanRecord.child "visits" = some (.leaf (.boolean true)) ∧
      (booleanRecord.updateChildValues (dictionaryFromPlace
        (Places.visit (some "ana") { samplePlace with visits := 1 }).2)).child "visits" =
          some (.leaf (.number 1)) ∧
      (booleanRecord.updateChildValues (dictionaryFromPlace
        (Places.visit (some "ana") { samplePlace with visits := 1 }).2)).child ≠
          Function.update
            (Function.update booleanRecord.child "visitors" (Value.array (strings ["ana"])).stored)
            "key" (some (.leaf (.string "boyana"))) := by
  refine ⟨by decide +kernel, by decide, by decide +kernel, by decide +kernel, fun hsame ↦ ?_⟩
  have hvisits := congrFun hsame "visits"
  revert hvisits
  decide +kernel

end BeenHere
