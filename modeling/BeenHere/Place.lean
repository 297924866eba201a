import BeenHere.Firebase

/-!
# Places

The class `Place`, its two mutators, its encoding as a database record, and the class functions
`Places.visit` and `Places.rate`, which call the mutators under the name of the current user.
A `Double` that the app stores is a rational and division is exact; an `Int` is an integer.
A forced cast that traps is `none`.

`decodes_iff` is the decoder child by child. `placeFromDictionary_updateChildValues` is the law of
the encoding: a place that is written and read back under a key is the place again, without its
image data, unless the names in its ratings are the indices of an array, and then the decoder
traps.
-/

set_option autoImplicit false
set_option relaxedAutoImplicit false

namespace BeenHere

open Firebase

/-- The bytes of an image. -/
abbrev Data := List UInt8

/-- `class Place`. -/
@[ext] structure Place where
  placeName : String
  key : String
  info : String
  latitude : ℚ
  longitude : ℚ
  rating : ℚ
  visits : ℤ
  visitors : List String
  ratings : Dictionary String ℤ
  imageNames : List String
  placeImages : Dictionary String Data
  deriving DecidableEq

namespace Place

/-- `Place.init`. -/
def init : Place where
  placeName := ""
  key := ""
  info := ""
  latitude := 0
  longitude := 0
  rating := 0
  visits := 0
  visitors := []
  ratings := ∅
  imageNames := []
  placeImages := ∅

instance : Inhabited Place := ⟨init⟩

def visit (place : Place) (user : String) : Place :=
  if place.visitors.contains user = false then
    { place with visitors := place.visitors ++ [user] }
  else place

/-- The loop adds up the values in the order in which the dictionary enumerates them, which the
sum does not depend on. -/
def calculateRating (place : Place) : ℚ :=
  if place.ratings.keys.card > 0 then (place.ratings.values.sum : ℚ) / place.ratings.keys.card
  else 0

def rate (place : Place) (username : String) (rating : ℤ) : Place :=
  let rated := { place with ratings := place.ratings.insert username rating }
  { rated with rating := rated.calculateRating }

/-- The place without the image data, which no record holds. -/
def withoutImages (place : Place) : Place := { place with placeImages := ∅ }

theorem key_eq_of_withoutImages {first second : Place}
    (h : first.withoutImages = second.withoutImages) : first.key = second.key := by
  have hkey := congrArg Place.key h
  exact hkey

theorem visitors_eq_of_withoutImages {first second : Place}
    (h : first.withoutImages = second.withoutImages) : first.visitors = second.visitors := by
  have hvisitors := congrArg Place.visitors h
  exact hvisitors

theorem imageNames_eq_of_withoutImages {first second : Place}
    (h : first.withoutImages = second.withoutImages) : first.imageNames = second.imageNames := by
  have hnames := congrArg Place.imageNames h
  exact hnames

/-! ### The record of a place -/

/-- A required child: the forced cast of a child that is absent traps. -/
def requiredChild {Content : Type} (child : Option Value) (cast : Value → Option Content) :
    Option Content :=
  child.bind cast

/-- An optional child: its default when it is absent, and otherwise the forced cast. -/
def optionalChild {Content : Type} (child : Option Value) (cast : Value → Option Content)
    (absent : Content) : Option Content :=
  match child with
  | none => some absent
  | some value => cast value

def placeFromDictionary (dictionary : Children Value) (key : String) : Option Place := do
  let placeName ← requiredChild (dictionary "name") Value.asString
  let info ← requiredChild (dictionary "info") Value.asString
  let rating ← requiredChild (dictionary "rating") Value.asDouble
  let latitude ← requiredChild (dictionary "lat") Value.asDouble
  let longitude ← requiredChild (dictionary "lon") Value.asDouble
  let visits ← requiredChild (dictionary "visits") Value.asInt
  let imageNames ← optionalChild (dictionary "images") Value.asStringArray []
  let visitors ← optionalChild (dictionary "visitors") Value.asStringArray []
  let ratings ← optionalChild (dictionary "ratings") Value.asIntDictionary ∅
  return { init with placeName, info, rating, latitude, longitude, visits, key, imageNames,
                     visitors, ratings }

def dictionaryFromPlace (place : Place) : Children Value
  | "name" => some (.scalar (.string place.placeName))
  | "key" => some (.scalar (.string place.key))
  | "info" => some (.scalar (.string place.info))
  | "rating" => some (.scalar (.number place.rating))
  | "lat" => some (.scalar (.number place.latitude))
  | "lon" => some (.scalar (.number place.longitude))
  | "visits" => some (.scalar (.number place.visits))
  | "visitors" => some (.array (strings place.visitors))
  | "ratings" => some (.dictionary (integers place.ratings))
  | "images" => some (.array (strings place.imageNames))
  | _ => none

end Place

/-! ### Calls under the current user

`currentUser` is the uid of `Auth.auth().currentUser`, if someone is signed in. -/

namespace Places

/-- The name under which a visit is recorded. -/
def visitName (currentUser : Option String) (place : Place) : String :=
  match currentUser with
  | some uid => uid
  | none => "Anonymous" ++ decimal (place.visitors.length + 1)

/-- The name under which a rating is recorded. -/
def rateName (currentUser : Option String) (place : Place) : String :=
  match currentUser with
  | some uid => uid
  | none => decimal (place.ratings.keys.card + 1)

/-- `Places.visit`: what it returns and the place afterwards. It writes the place back precisely
when it returns `true`. -/
def visit (currentUser : Option String) (place : Place) : Bool × Place :=
  if place.visitors.contains (visitName currentUser place) = false then
    (true, place.visit (visitName currentUser place))
  else (false, place)

/-- `Places.rate`: the place afterwards, which it always writes back. -/
def rate (currentUser : Option String) (place : Place) (rating : ℤ) : Place :=
  place.rate (rateName currentUser place) rating

end Places

namespace Place

/-! ### What the mutators do -/

theorem visit_of_notMem {place : Place} {user : String} (h : user ∉ place.visitors) :
    place.visit user = { place with visitors := place.visitors ++ [user] } := by
  simp [visit, h]

@[simp] theorem ratings_rate (place : Place) (username : String) (rating : ℤ) :
    (place.rate username rating).ratings = place.ratings.insert username rating := rfl

@[simp] theorem key_rate (place : Place) (username : String) (rating : ℤ) :
    (place.rate username rating).key = place.key := rfl

theorem rating_rate (place : Place) (username : String) (rating : ℤ) :
    (place.rate username rating).rating = (place.rate username rating).calculateRating := rfl

end Place

namespace Places

variable {currentUser : Option String} {place : Place}

theorem visit_of_mem (h : visitName currentUser place ∈ place.visitors) :
    visit currentUser place = (false, place) := by
  simp [visit, h]

theorem visit_of_notMem (h : visitName currentUser place ∉ place.visitors) :
    visit currentUser place =
      (true, { place with visitors := place.visitors ++ [visitName currentUser place] }) := by
  simp [visit, h, Place.visit]

@[simp] theorem key_visit (currentUser : Option String) (place : Place) :
    (visit currentUser place).2.key = place.key := by
  by_cases h : visitName currentUser place ∈ place.visitors
  · rw [visit_of_mem h]
  · rw [visit_of_notMem h]

@[simp] theorem ratings_visit (currentUser : Option String) (place : Place) :
    (visit currentUser place).2.ratings = place.ratings := by
  by_cases h : visitName currentUser place ∈ place.visitors
  · rw [visit_of_mem h]
  · rw [visit_of_notMem h]

end Places

/-! ### The encoding -/

namespace Place

/-- The decoding of a dictionary, child by child. -/
structure Decodes (dictionary : Children Value) (key : String) (place : Place) : Prop where
  name : requiredChild (dictionary "name") Value.asString = some place.placeName
  info : requiredChild (dictionary "info") Value.asString = some place.info
  rating : requiredChild (dictionary "rating") Value.asDouble = some place.rating
  latitude : requiredChild (dictionary "lat") Value.asDouble = some place.latitude
  longitude : requiredChild (dictionary "lon") Value.asDouble = some place.longitude
  visits : requiredChild (dictionary "visits") Value.asInt = some place.visits
  images : optionalChild (dictionary "images") Value.asStringArray [] = some place.imageNames
  visitors : optionalChild (dictionary "visitors") Value.asStringArray [] = some place.visitors
  ratings : optionalChild (dictionary "ratings") Value.asIntDictionary ∅ = some place.ratings
  key : place.key = key
  placeImages : place.placeImages = ∅

theorem decodes_iff {dictionary : Children Value} {key : String} {place : Place} :
    placeFromDictionary dictionary key = some place ↔ Decodes dictionary key place := by
  simp only [placeFromDictionary, Option.bind_eq_bind, Option.bind_eq_some_iff, Option.pure_def,
    Option.some.injEq]
  constructor
  · rintro ⟨_, hname, _, hinfo, _, hrating, _, hlat, _, hlon, _, hvisits, _, himages, _, hvisitors,
      _, hratings, rfl⟩
    exact ⟨hname, hinfo, hrating, hlat, hlon, hvisits, himages, hvisitors, hratings, rfl, rfl⟩
  · rintro ⟨hname, hinfo, hrating, hlat, hlon, hvisits, himages, hvisitors, hratings, hkey, hempty⟩
    refine ⟨_, hname, _, hinfo, _, hrating, _, hlat, _, hlon, _, hvisits, _, himages, _, hvisitors,
      _, hratings, ?_⟩
    ext1 <;> first | rfl | exact hkey.symm | exact hempty.symm

/-- An array of strings that is written is decoded as itself, the empty one as the absent child. -/
theorem optionalChild_array (texts : List String) :
    optionalChild ((Value.array (strings texts)).stored.map Node.exported) Value.asStringArray [] =
      some texts := by
  by_cases hempty : texts = []
  · rw [hempty]
    rfl
  · rw [Value.stored, if_neg (arrayChildren_strings_ne_empty hempty), Option.map_some,
      exported_arrayChildren hempty]
    exact stringElements_strings texts

/-- A dictionary of integers that is written is decoded as itself, unless its keys are the indices
of an array. -/
theorem optionalChild_dictionary (entries : Dictionary String ℤ) :
    optionalChild ((Value.dictionary (integers entries)).stored.map Node.exported)
        Value.asIntDictionary ∅ =
      if maxIndex? entries.keys = none then some entries else none := by
  have hkeys : (integers entries).keys = entries.keys := Dictionary.keys_mapValues ..
  by_cases hempty : entries = ∅
  · rw [hempty]
    rfl
  · have hstored : integers entries ≠ ∅ := fun h ↦ hempty (Dictionary.mapValues_eq_empty_iff.mp h)
    rw [Value.stored, if_neg hstored, Option.map_some]
    cases hmax : maxIndex? entries.keys with
    | none =>
      rw [exported_object_of_not_index (by rw [hkeys, hmax]), if_pos rfl]
      exact castValues_integers entries
    | some max =>
      rw [Node.exported, hkeys, hmax, if_neg (Option.some_ne_none max)]
      rfl

/-- The law of the encoding. A place that is written over any record and read back under a key is
decoded as the place with that key and without image data, unless the names in its ratings are the
indices of an array; then the decoder traps. -/
theorem placeFromDictionary_updateChildValues (record : Record) (place : Place) (key : String) :
    placeFromDictionary (record.updateChildValues (dictionaryFromPlace place)).snapshot key =
      if maxIndex? place.ratings.keys = none then some { place.withoutImages with key := key }
      else none := by
  have hchild (name : String) {value : Value} (h : dictionaryFromPlace place name = some value) :
      (record.updateChildValues (dictionaryFromPlace place)).snapshot name =
        value.stored.map Node.exported := by
    rw [Record.snapshot, Record.child_updateChildValues_of_some h]
  have hratings := optionalChild_dictionary place.ratings
  rw [← hchild "ratings" rfl] at hratings
  by_cases hmax : maxIndex? place.ratings.keys = none
  · rw [if_pos hmax] at hratings ⊢
    refine decodes_iff.mpr ⟨?_, ?_, ?_, ?_, ?_, ?_, ?_, ?_, hratings, rfl, rfl⟩
    · rw [hchild "name" rfl]; rfl
    · rw [hchild "info" rfl]; rfl
    · rw [hchild "rating" rfl]; rfl
    · rw [hchild "lat" rfl]; rfl
    · rw [hchild "lon" rfl]; rfl
    · rw [hchild "visits" rfl]; rfl
    · rw [hchild "images" rfl]; exact optionalChild_array place.imageNames
    · rw [hchild "visitors" rfl]; exact optionalChild_array place.visitors
  · rw [if_neg hmax] at hratings ⊢
    refine Option.eq_none_iff_forall_ne_some.mpr fun decoded hdecoded ↦ ?_
    have hsome := (decodes_iff.mp hdecoded).ratings
    rw [hratings] at hsome
    cases hsome

/-! ### What a decodable record stores -/

section Stored

variable {record : Record} {name : String}

/-- The children that are read as numbers, and written back as numbers. -/
def numericNames : List String := ["rating", "lat", "lon", "visits", "ratings"]

/-- The children of a record, with numbers in place of the booleans that are read as numbers. -/
def unboxedChildren (record : Record) : Children Node := fun name ↦
  if name ∈ numericNames then (record.child name).map Node.unboxed else record.child name

/-- A record without booleans where numbers are read. -/
theorem unboxedChildren_eq_self
    (h : ∀ name ∈ numericNames, ∀ node, record.child name = some node → ¬ node.HasBoolean) :
    unboxedChildren record = record.child := by
  funext name
  rw [unboxedChildren]
  split_ifs with hname
  · cases hchild : record.child name with
    | none => rfl
    | some node => rw [Option.map_some, Node.unboxed_eq_self (h name hname node hchild)]
  · rfl

/-- Assumes: a cast that accepts only leaves. A required child that is decoded is a leaf. -/
theorem exists_leaf_of_requiredChild {Content : Type} {cast : Value → Option Content}
    {content : Content} {property : Scalar → Prop}
    (hcast : ∀ {value}, cast value = some content → ∃ leaf, value = .scalar leaf ∧ property leaf)
    (h : requiredChild (record.snapshot name) cast = some content) :
    ∃ leaf, record.child name = some (.leaf leaf) ∧ property leaf := by
  obtain ⟨value, hvalue, hcontent⟩ := Option.bind_eq_some_iff.mp h
  obtain ⟨node, hnode, hexported⟩ := Option.map_eq_some_iff.mp hvalue
  obtain ⟨leaf, rfl, hleaf⟩ := hcast hcontent
  exact ⟨leaf, by rw [hnode, eq_leaf_of_exported hexported], hleaf⟩

theorem child_of_asString {text : String}
    (h : requiredChild (record.snapshot name) Value.asString = some text) :
    record.child name = some (.leaf (.string text)) := by
  obtain ⟨_, hchild, rfl⟩ :=
    exists_leaf_of_requiredChild (fun h ↦ ⟨_, eq_scalar_of_asString h, rfl⟩) h
  exact hchild

/-- Assumes: a cast that accepts only leaves that are numbers up to booleans. -/
theorem unboxed_of_requiredChild {Content : Type} {cast : Value → Option Content}
    {content : Content} {number : ℚ}
    (hcast : ∀ {value}, cast value = some content →
      ∃ leaf, value = .scalar leaf ∧ leaf.unboxed = .number number)
    (h : requiredChild (record.snapshot name) cast = some content) :
    (record.child name).map Node.unboxed = some (.leaf (.number number)) := by
  obtain ⟨leaf, hchild, hleaf⟩ := exists_leaf_of_requiredChild hcast h
  rw [hchild, Option.map_some, Node.unboxed, hleaf]

theorem child_of_asStringArray {texts : List String}
    (h : optionalChild (record.snapshot name) Value.asStringArray [] = some texts) :
    record.child name = (Value.array (strings texts)).stored := by
  rw [Record.snapshot] at h
  cases hchild : record.child name with
  | none =>
    rw [hchild] at h
    rw [← Option.some.inj h]
    rfl
  | some node =>
    rw [hchild] at h
    cases node with
    | leaf leaf => cases h
    | nested json => cases h
    | object children =>
      have hcast : (Node.object children).exported.asStringArray = some texts := h
      cases hexported : (Node.object children).exported with
      | scalar leaf => rw [hexported] at hcast; cases hcast
      | dictionary entries => rw [hexported] at hcast; cases hcast
      | nested json => rw [hexported] at hcast; cases hcast
      | array elements =>
        rw [hexported] at hcast
        have hstored := arrayChildren_of_exported hexported
        rw [eq_strings_of_stringElements hcast] at hstored
        have hne : children ≠ ∅ := fun hempty ↦ record.stored name (hempty ▸ hchild)
        rw [Value.stored, hstored, if_neg hne]

theorem unboxed_of_asIntDictionary {entries : Dictionary String ℤ}
    (h : optionalChild (record.snapshot name) Value.asIntDictionary ∅ = some entries) :
    (record.child name).map Node.unboxed = (Value.dictionary (integers entries)).stored := by
  rw [Record.snapshot] at h
  cases hchild : record.child name with
  | none =>
    rw [hchild] at h
    rw [← Option.some.inj h]
    rfl
  | some node =>
    rw [hchild] at h
    cases node with
    | leaf leaf => cases h
    | nested json => cases h
    | object children =>
      have hcast : (Node.object children).exported.asIntDictionary = some entries := h
      cases hmax : maxIndex? children.keys with
      | some max => simp [Node.exported, hmax, Value.asIntDictionary] at hcast
      | none =>
        rw [exported_object_of_not_index hmax] at hcast
        have hne : children ≠ ∅ := fun hempty ↦ record.stored name (hempty ▸ hchild)
        have hintegers := mapValues_unboxed_of_castValues hcast
        have hstored : integers entries ≠ ∅ := by
          rw [← hintegers]
          exact fun hempty ↦ hne (Dictionary.mapValues_eq_empty_iff.mp hempty)
        rw [Value.stored, if_neg hstored, Option.map_some, Node.unboxed, hintegers]

/-- The encoding is a left inverse of the decoding on every child but the stored key: what the
decoded place would write is what the record holds, up to the booleans that are read as numbers. -/
theorem unboxedChildren_of_decodes {key : String} {place : Place}
    (h : Decodes record.snapshot key place) {value : Value}
    (hvalue : dictionaryFromPlace place name = some value) (hname : name ≠ "key") :
    unboxedChildren record name = value.stored := by
  unfold dictionaryFromPlace at hvalue
  split at hvalue <;> cases hvalue
  · exact child_of_asString h.name
  · exact absurd rfl hname
  · exact child_of_asString h.info
  · exact unboxed_of_requiredChild exists_scalar_of_asDouble h.rating
  · exact unboxed_of_requiredChild exists_scalar_of_asDouble h.latitude
  · exact unboxed_of_requiredChild exists_scalar_of_asDouble h.longitude
  · exact unboxed_of_requiredChild exists_scalar_of_asInt h.visits
  · exact child_of_asStringArray h.visitors
  · exact unboxed_of_asIntDictionary h.ratings
  · exact child_of_asStringArray h.images

/-- The rating of a user in a record is the one that is decoded. -/
theorem lookup_ratings_of_decodes {key : String} {place : Place}
    (h : Decodes record.snapshot key place) {user : String} {rating : ℤ}
    (hrating : record.ratingOf user = some (.number rating)) :
    place.ratings.lookup user = some rating := by
  have hchild := unboxed_of_asIntDictionary h.ratings
  unfold Record.ratingOf at hrating
  split at hrating
  · rename_i children hstored
    rw [hstored, Option.map_some, Node.unboxed, Value.stored] at hchild
    split_ifs at hchild
    have hentries := Node.object.inj (Option.some.inj hchild)
    have hlookup := congrArg (Finmap.lookup user) hentries
    rw [integers, Dictionary.lookup_mapValues, Dictionary.lookup_mapValues, hrating] at hlookup
    obtain ⟨value, hvalue, hnumber⟩ := Option.map_eq_some_iff.mp hlookup.symm
    rw [hvalue, Int.cast_injective (Scalar.number.inj hnumber)]
  · cases hrating

end Stored

end Place

end BeenHere
