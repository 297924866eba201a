import BeenHere.Library.Dictionary
import Mathlib

/-!
# Database records

The Firebase Realtime Database as the app relies on it; the service is not part of the repository.
A node below `Places` is a `Record`: a finite set of named children, each a leaf, an object of
leaves or a deeper subtree. An update replaces exactly the children it lists
(`updateChildValues`). Arrays are stored as objects with the keys `0 .. n-1`, and nothing is stored
for an empty array or an empty dictionary (`Value.stored`). An object whose keys are all indices,
more than half of `0 .. max` present, is read back as an array with nulls in the gaps
(`Node.exported`).

`exported_arrayChildren` and `arrayChildren_of_exported` say that the array representation loses
nothing in either direction; `exported_object_of_not_index` that an object survives as a dictionary
as long as its keys are not the indices of an array. A cast to a number takes a boolean for 1 or 0,
and what it returns determines the leaf up to that (`unboxed_of_asInt`).
-/

set_option autoImplicit false
set_option relaxedAutoImplicit false

namespace BeenHere.Firebase

/-- A leaf of the database. It reaches the app as an `NSString` or, a boolean like a number, as an
`NSNumber`. -/
inductive Scalar
  | string (text : String)
  | number (value : ℚ)
  | boolean (value : Bool)
  deriving DecidableEq, Repr

/-- The content of an `Any`: a child of `snapshot.value`, or a value handed to
`updateChildValues`. An array holds `none` for `NSNull`. A container that holds containers is kept
as its JSON text, since no cast of the app accepts one. -/
inductive Value
  | scalar (leaf : Scalar)
  | array (elements : List (Option Scalar))
  | dictionary (entries : Dictionary String Scalar)
  | nested (json : String)
  deriving DecidableEq

/-- A child of a record as it is stored. -/
inductive Node
  | leaf (leaf : Scalar)
  | object (children : Dictionary String Scalar)
  | nested (json : String)
  deriving DecidableEq

/-- Named children: the content of a `Dictionary<String,Any>`. -/
abbrev Children (Content : Type) := String → Option Content

/-! ### Casts out of `Any`

Each cast returns `none` where the forced cast `as!` traps. -/

def Scalar.asString : Scalar → Option String
  | .string text => some text
  | .number _ | .boolean _ => none

/-- The number of a boolean as an `NSNumber`. -/
def boolValue (value : Bool) : ℚ := if value then 1 else 0

def Scalar.asDouble : Scalar → Option ℚ
  | .string _ => none
  | .number value => some value
  | .boolean value => some (boolValue value)

def Scalar.asInt (leaf : Scalar) : Option ℤ :=
  leaf.asDouble.bind fun value ↦ if value.den = 1 then some value.num else none

/-- `as! String`. -/
def Value.asString : Value → Option String
  | .scalar leaf => leaf.asString
  | _ => none

/-- `as! Double`. -/
def Value.asDouble : Value → Option ℚ
  | .scalar leaf => leaf.asDouble
  | _ => none

/-- `as! Int`. -/
def Value.asInt : Value → Option ℤ
  | .scalar leaf => leaf.asInt
  | _ => none

/-- `as! Array<String>` on the elements of an array. -/
def stringElements : List (Option Scalar) → Option (List String)
  | [] => some []
  | none :: _ => none
  | some leaf :: rest =>
    leaf.asString.bind fun text ↦ (stringElements rest).map fun texts ↦ text :: texts

/-- `as! Array<String>`. -/
def Value.asStringArray : Value → Option (List String)
  | .array elements => stringElements elements
  | _ => none

/-- `as! Dictionary<String,Int>`. -/
def Value.asIntDictionary : Value → Option (Dictionary String ℤ)
  | .dictionary entries => entries.castValues Scalar.asInt
  | _ => none

/-- The array of strings as an `Any`. -/
def strings (texts : List String) : List (Option Scalar) := texts.map fun text ↦ some (.string text)

/-- The dictionary of integers as an `Any`. -/
def integers (entries : Dictionary String ℤ) : Dictionary String Scalar :=
  entries.mapValues fun value : ℤ ↦ .number value

@[simp] theorem asString_string (text : String) : (Scalar.string text).asString = some text := rfl

@[simp] theorem asInt_intCast (value : ℤ) : (Scalar.number value).asInt = some value := rfl

theorem eq_string_of_asString {leaf : Scalar} {text : String} (h : leaf.asString = some text) :
    leaf = .string text := by
  cases leaf with
  | string other => exact congrArg Scalar.string (Option.some.inj h)
  | number value => cases h
  | boolean value => cases h

/-- The leaf with the number in place of a boolean. -/
def Scalar.unboxed : Scalar → Scalar
  | .boolean value => .number (boolValue value)
  | leaf => leaf

theorem unboxed_of_asDouble {leaf : Scalar} {value : ℚ} (h : leaf.asDouble = some value) :
    leaf.unboxed = .number value := by
  cases leaf with
  | string text => cases h
  | number other => exact congrArg Scalar.number (Option.some.inj h)
  | boolean other => exact congrArg Scalar.number (Option.some.inj h)

theorem unboxed_of_asInt (leaf : Scalar) (value : ℤ) (h : leaf.asInt = some value) :
    leaf.unboxed = .number value := by
  obtain ⟨number, hnumber, hvalue⟩ := Option.bind_eq_some_iff.mp h
  split_ifs at hvalue with hden
  rw [unboxed_of_asDouble hnumber, ← Option.some.inj hvalue, Rat.coe_int_num_of_den_eq_one hden]

theorem eq_scalar_of_asString {value : Value} {text : String} (h : value.asString = some text) :
    value = .scalar (.string text) := by
  cases value with
  | scalar leaf => rw [eq_string_of_asString h]
  | array elements => cases h
  | dictionary entries => cases h
  | nested json => cases h

theorem exists_scalar_of_asDouble {value : Value} {number : ℚ} (h : value.asDouble = some number) :
    ∃ leaf, value = .scalar leaf ∧ leaf.unboxed = .number number := by
  cases value with
  | scalar leaf => exact ⟨leaf, rfl, unboxed_of_asDouble h⟩
  | array elements => cases h
  | dictionary entries => cases h
  | nested json => cases h

theorem exists_scalar_of_asInt {value : Value} {number : ℤ} (h : value.asInt = some number) :
    ∃ leaf, value = .scalar leaf ∧ leaf.unboxed = .number number := by
  cases value with
  | scalar leaf => exact ⟨leaf, rfl, unboxed_of_asInt leaf number h⟩
  | array elements => cases h
  | dictionary entries => cases h
  | nested json => cases h

@[simp] theorem stringElements_strings (texts : List String) :
    stringElements (strings texts) = some texts := by
  induction texts with
  | nil => rfl
  | cons text rest ih =>
    rw [strings, List.map_cons, ← strings, stringElements, asString_string, ih]
    rfl

theorem eq_strings_of_stringElements {elements : List (Option Scalar)} {texts : List String}
    (h : stringElements elements = some texts) : elements = strings texts := by
  induction elements generalizing texts with
  | nil =>
    rw [← Option.some.inj h]
    rfl
  | cons element rest ih =>
    cases element with
    | none => cases h
    | some leaf =>
      obtain ⟨text, htext, hrest⟩ := Option.bind_eq_some_iff.mp h
      obtain ⟨others, hothers, rfl⟩ := Option.map_eq_some_iff.mp hrest
      rw [ih hothers, eq_string_of_asString htext]
      rfl

@[simp] theorem castValues_integers (entries : Dictionary String ℤ) :
    (integers entries).castValues Scalar.asInt = some entries :=
  Dictionary.castValues_mapValues asInt_intCast entries

theorem mapValues_unboxed_of_castValues {entries : Dictionary String Scalar}
    {values : Dictionary String ℤ} (h : entries.castValues Scalar.asInt = some values) :
    entries.mapValues Scalar.unboxed = integers values :=
  Dictionary.mapValues_eq_of_castValues unboxed_of_asInt h

/-! ### Arrays in the database -/

/-- The decimal numeral of a number, as string interpolation writes it. -/
def decimal (number : ℕ) : String := toString number

/-- The children under which the elements of an array are stored, the first at index `start`. -/
def arrayChildrenFrom (start : ℕ) : List (Option Scalar) → Dictionary String Scalar
  | [] => ∅
  | none :: rest => arrayChildrenFrom (start + 1) rest
  | some leaf :: rest => (arrayChildrenFrom (start + 1) rest).insert (decimal start) leaf

/-- The children under which the elements of an array are stored. -/
def arrayChildren (elements : List (Option Scalar)) : Dictionary String Scalar :=
  arrayChildrenFrom 0 elements

/-- The keys are all indices, `max` is the largest of them, and more than half of `0 .. max` is
present. -/
def ArrayKeys (keys : Finset String) (max : ℕ) : Prop :=
  decimal max ∈ keys ∧ (∀ key ∈ keys, ∃ index < max + 1, decimal index = key) ∧
    max + 1 < 2 * keys.card

instance (keys : Finset String) (max : ℕ) : Decidable (ArrayKeys keys max) :=
  inferInstanceAs (Decidable (_ ∧ _ ∧ _))

/-- The largest index, when the keys are those of an array. -/
def maxIndex? (keys : Finset String) : Option ℕ :=
  (List.range (2 * keys.card)).find? fun max ↦ ArrayKeys keys max

/-- What is stored for a value; `none` when nothing is. -/
def Value.stored : Value → Option Node
  | .scalar value => some (.leaf value)
  | .array elements =>
    if arrayChildren elements = ∅ then none else some (.object (arrayChildren elements))
  | .dictionary entries => if entries = ∅ then none else some (.object entries)
  | .nested json => some (.nested json)

/-- A dictionary of integers is determined by what it stores. -/
theorem stored_integers_injective {first second : Dictionary String ℤ}
    (h : (Value.dictionary (integers first)).stored = (Value.dictionary (integers second)).stored) :
    first = second := by
  have hentries : integers first = integers second := by
    by_cases hfirst : integers first = ∅ <;> by_cases hsecond : integers second = ∅ <;>
      simp_all [Value.stored]
  have hcast := castValues_integers first
  rw [hentries, castValues_integers] at hcast
  exact (Option.some.inj hcast).symm

/-- The value under which a stored child is read back. -/
def Node.exported : Node → Value
  | .leaf value => .scalar value
  | .object children =>
    match maxIndex? children.keys with
    | some max =>
      .array ((List.range (max + 1)).map fun index ↦ children.lookup (decimal index))
    | none => .dictionary children
  | .nested json => .nested json

/-- The child with numbers in place of its booleans. -/
def Node.unboxed : Node → Node
  | .leaf value => .leaf value.unboxed
  | .object children => .object (children.mapValues Scalar.unboxed)
  | .nested json => .nested json

/-- The child is a boolean or an object with one. -/
def Node.HasBoolean : Node → Prop
  | .leaf value => ∃ truth, value = .boolean truth
  | .object children => ∃ key value, children.lookup key = some (.boolean value)
  | .nested _ => False

theorem Scalar.unboxed_eq_self {leaf : Scalar} (h : ¬ ∃ value, leaf = .boolean value) :
    leaf.unboxed = leaf := by
  cases leaf with
  | string text => rfl
  | number value => rfl
  | boolean value => exact absurd ⟨value, rfl⟩ h

theorem Node.unboxed_eq_self {node : Node} (h : ¬ node.HasBoolean) : node.unboxed = node := by
  cases node with
  | leaf value => exact congrArg Node.leaf (Scalar.unboxed_eq_self h)
  | nested json => rfl
  | object children =>
    refine congrArg Node.object (Finmap.ext_lookup fun key ↦ ?_)
    rw [Dictionary.lookup_mapValues]
    cases hvalue : children.lookup key with
    | none => rfl
    | some value =>
      have hnumber : value.unboxed = value :=
        Scalar.unboxed_eq_self fun ⟨truth, htruth⟩ ↦ h ⟨key, truth, htruth ▸ hvalue⟩
      rw [Option.map_some, hnumber]

/-- The integers that are stored are no booleans. -/
theorem unboxed_stored_integers (entries : Dictionary String ℤ) :
    (Value.dictionary (integers entries)).stored.map Node.unboxed =
      (Value.dictionary (integers entries)).stored := by
  by_cases hempty : integers entries = ∅
  · rw [Value.stored, if_pos hempty]
    rfl
  · rw [Value.stored, if_neg hempty, Option.map_some, Node.unboxed_eq_self]
    rintro ⟨key, truth, htruth⟩
    rw [integers, Dictionary.lookup_mapValues] at htruth
    obtain ⟨value, _, hnumber⟩ := Option.map_eq_some_iff.mp htruth
    cases hnumber

theorem decimal_injective : Function.Injective decimal := fun _ _ h ↦ Nat.repr_injective h

theorem lookup_arrayChildrenFrom (elements : List (Option Scalar)) (start : ℕ) (key : String)
    (leaf : Scalar) : (arrayChildrenFrom start elements).lookup key = some leaf ↔
      ∃ index, decimal (start + index) = key ∧ elements[index]? = some (some leaf) := by
  induction elements generalizing start with
  | nil => simp [arrayChildrenFrom]
  | cons element rest ih =>
    have hshift : (∃ index, decimal (start + index) = key ∧
        (element :: rest)[index]? = some (some leaf)) ↔
        (decimal start = key ∧ element = some leaf) ∨
          ∃ index, decimal (start + 1 + index) = key ∧ rest[index]? = some (some leaf) := by
      constructor
      · rintro ⟨index, hkey, hleaf⟩
        cases index with
        | zero => exact Or.inl ⟨hkey, Option.some.inj hleaf⟩
        | succ index =>
          refine Or.inr ⟨index, ?_, hleaf⟩
          rw [← hkey, Nat.add_assoc, Nat.add_comm 1 index]
      · rintro (⟨hkey, rfl⟩ | ⟨index, hkey, hleaf⟩)
        · exact ⟨0, hkey, rfl⟩
        · refine ⟨index + 1, ?_, hleaf⟩
          rw [← hkey, Nat.add_assoc, Nat.add_comm 1 index]
    rw [hshift]
    cases element with
    | none => simp [arrayChildrenFrom, ih]
    | some first =>
      rw [arrayChildrenFrom]
      by_cases hkey : decimal start = key
      · subst hkey
        rw [Finmap.lookup_insert]
        -- no later element is stored under the index of the first
        have hlater : ¬ ∃ index, decimal (start + 1 + index) = decimal start ∧
            rest[index]? = some (some leaf) := by
          rintro ⟨index, hindex, _⟩
          have hindex := decimal_injective hindex
          omega
        simp only [hlater, or_false, true_and]
      · rw [Finmap.lookup_insert_of_ne _ (Ne.symm hkey), ih]
        simp [hkey]

theorem lookup_arrayChildren {elements : List (Option Scalar)} {key : String} {leaf : Scalar} :
    (arrayChildren elements).lookup key = some leaf ↔
      ∃ index, decimal index = key ∧ elements[index]? = some (some leaf) := by
  simpa only [arrayChildren, Nat.zero_add] using lookup_arrayChildrenFrom elements 0 key leaf

theorem mem_keys_iff_lookup {children : Dictionary String Scalar} {key : String} :
    key ∈ children.keys ↔ ∃ leaf, children.lookup key = some leaf := by
  rw [Finmap.mem_keys, Finmap.mem_iff]

theorem keys_arrayChildren_strings (texts : List String) :
    (arrayChildren (strings texts)).keys = (Finset.range texts.length).image decimal := by
  ext key
  rw [mem_keys_iff_lookup]
  simp only [lookup_arrayChildren, Finset.mem_image, Finset.mem_range, strings,
    List.getElem?_map, Option.map_eq_some_iff, Option.some.injEq]
  constructor
  · rintro ⟨_, index, hkey, text, htext, rfl⟩
    exact ⟨index, (List.getElem?_eq_some_iff.mp htext).1, hkey⟩
  · rintro ⟨index, hlt, hkey⟩
    exact ⟨_, index, hkey, texts[index], List.getElem?_eq_getElem hlt, rfl⟩

theorem ArrayKeys.eq {keys : Finset String} {first second : ℕ} (hfirst : ArrayKeys keys first)
    (hsecond : ArrayKeys keys second) : first = second := by
  obtain ⟨other, hother, heq⟩ := hsecond.2.1 _ hfirst.1
  obtain rfl := decimal_injective heq
  obtain ⟨another, hanother, heq⟩ := hfirst.2.1 _ hsecond.1
  obtain rfl := decimal_injective heq
  omega

theorem maxIndex?_eq_some_iff {keys : Finset String} {max : ℕ} :
    maxIndex? keys = some max ↔ ArrayKeys keys max := by
  have hfound {found : ℕ} (h : maxIndex? keys = some found) : ArrayKeys keys found := by
    simpa using List.find?_some h
  constructor
  · exact hfound
  · intro h
    have hmem : max ∈ List.range (2 * keys.card) := by
      rw [List.mem_range]
      have := h.2.2
      omega
    have hsome : (maxIndex? keys).isSome := by
      rw [maxIndex?, List.find?_isSome]
      exact ⟨max, hmem, decide_eq_true h⟩
    obtain ⟨found, heq⟩ := Option.isSome_iff_exists.mp hsome
    rw [heq, (hfound heq).eq h]

theorem arrayKeys_strings {texts : List String} (htexts : texts ≠ []) :
    ArrayKeys (arrayChildren (strings texts)).keys (texts.length - 1) := by
  have hpos : 0 < texts.length := List.length_pos_iff.mpr htexts
  rw [keys_arrayChildren_strings]
  refine ⟨Finset.mem_image_of_mem _ (Finset.mem_range.mpr (by omega)), fun key hkey ↦ ?_, ?_⟩
  · obtain ⟨index, hindex, rfl⟩ := Finset.mem_image.mp hkey
    exact ⟨index, by rw [Finset.mem_range] at hindex; omega, rfl⟩
  · rw [Finset.card_image_of_injective _ decimal_injective, Finset.card_range]
    omega

theorem arrayChildren_strings_ne_empty {texts : List String} (htexts : texts ≠ []) :
    arrayChildren (strings texts) ≠ ∅ := by
  intro hempty
  have hkeys := (arrayKeys_strings htexts).1
  rw [hempty, Finmap.keys_empty] at hkeys
  exact Finset.notMem_empty _ hkeys

/-- An array of strings that is stored is read back as itself. -/
theorem exported_arrayChildren {texts : List String} (htexts : texts ≠ []) :
    (Node.object (arrayChildren (strings texts))).exported = .array (strings texts) := by
  have hpos : 0 < texts.length := List.length_pos_iff.mpr htexts
  rw [Node.exported, maxIndex?_eq_some_iff.mpr (arrayKeys_strings htexts)]
  simp only [Value.array.injEq]
  refine List.ext_getElem? fun index ↦ ?_
  rw [show texts.length - 1 + 1 = texts.length by omega]
  simp only [strings, List.getElem?_map]
  by_cases hindex : index < texts.length
  · have hlookup : (arrayChildren (strings texts)).lookup (decimal index) =
        some (.string texts[index]) :=
      lookup_arrayChildren.mpr ⟨index, rfl, by
        simp only [strings, List.getElem?_map, List.getElem?_eq_getElem hindex, Option.map_some]⟩
    rw [List.getElem?_range hindex, List.getElem?_eq_getElem hindex, Option.map_some,
      Option.map_some, ← strings, hlookup]
  · rw [List.getElem?_eq_none (by simpa using hindex),
      List.getElem?_eq_none (by simpa using hindex)]
    rfl

/-- A stored object that is read back as an array is what that array stores. -/
theorem arrayChildren_of_exported {children : Dictionary String Scalar}
    {elements : List (Option Scalar)} (h : (Node.object children).exported = .array elements) :
    arrayChildren elements = children := by
  rw [Node.exported] at h
  cases hmax : maxIndex? children.keys with
  | none => rw [hmax] at h; cases h
  | some max =>
    rw [hmax] at h
    obtain rfl := Value.array.inj h
    have hkeys := maxIndex?_eq_some_iff.mp hmax
    refine Finmap.ext_lookup fun key ↦ Option.ext fun leaf ↦ ?_
    rw [lookup_arrayChildren]
    simp only [List.getElem?_map, Option.map_eq_some_iff]
    constructor
    · rintro ⟨index, rfl, other, hother, hleaf⟩
      obtain ⟨hlt, rfl⟩ := List.getElem?_eq_some_iff.mp hother
      rwa [List.getElem_range] at hleaf
    · intro hleaf
      obtain ⟨index, hlt, rfl⟩ := hkeys.2.1 key (mem_keys_iff_lookup.mpr ⟨leaf, hleaf⟩)
      exact ⟨index, rfl, index, List.getElem?_range hlt, hleaf⟩

theorem eq_leaf_of_exported {node : Node} {value : Scalar} (h : node.exported = .scalar value) :
    node = .leaf value := by
  cases node with
  | leaf other => rw [Value.scalar.inj h]
  | object children => cases hmax : maxIndex? children.keys <;> simp [Node.exported, hmax] at h
  | nested json => cases h

/-- An object whose keys are not the indices of an array is read back as a dictionary. -/
theorem exported_object_of_not_index {children : Dictionary String Scalar}
    (h : maxIndex? children.keys = none) :
    (Node.object children).exported = .dictionary children := by
  rw [Node.exported, h]

/-! ### Records -/

/-- The node of a place as the database stores it. Nothing is stored for an empty object. -/
@[ext] structure Record where
  child : Children Node
  stored : ∀ name, child name ≠ some (.object ∅)

namespace Record

/-- The node that does not exist. -/
def absent : Record := ⟨fun _ ↦ none, fun _ h ↦ by cases h⟩

/-- `snapshot.value` of the node. -/
def snapshot (record : Record) : Children Value := fun name ↦
  (record.child name).map Node.exported

theorem stored_ne_object_empty (value : Value) : value.stored ≠ some (.object ∅) := by
  cases value with
  | scalar value => simp [Value.stored]
  | array elements =>
    by_cases hempty : arrayChildren elements = ∅ <;> simp [Value.stored, hempty]
  | dictionary entries => by_cases hempty : entries = ∅ <;> simp [Value.stored, hempty]
  | nested json => simp [Value.stored]

/-- Replaces exactly the listed children. On the absent node this creates it. -/
def updateChildValues (record : Record) (values : Children Value) : Record where
  child name :=
    match values name with
    | some value => value.stored
    | none => record.child name
  stored name := by
    split
    · exact stored_ne_object_empty _
    · exact record.stored name

theorem child_updateChildValues_of_some {record : Record} {values : Children Value}
    {name : String} {value : Value} (h : values name = some value) :
    (record.updateChildValues values).child name = value.stored := by
  simp only [updateChildValues, h]

theorem child_updateChildValues_of_none {record : Record} {values : Children Value}
    {name : String} (h : values name = none) :
    (record.updateChildValues values).child name = record.child name := by
  simp only [updateChildValues, h]

/-- Whether the child `visitors` lists a user. -/
def listsVisitor (record : Record) (user : String) : Bool :=
  match record.child "visitors" with
  | some (.object children) => Scalar.string user ∈ children.values
  | _ => false

/-- The leaf that the child `ratings` maps a user to. -/
def ratingOf (record : Record) (user : String) : Option Scalar :=
  match record.child "ratings" with
  | some (.object children) => children.lookup user
  | _ => none

end Record

end BeenHere.Firebase
