import Mathlib.Data.Finmap

/-!
# Dictionaries

A dictionary is a finite map without an order: `Finmap` with a constant value type. This module
adds what a program over dictionaries needs beyond `Finmap`: the multiset of its values, the image
of a dictionary under a function on values, and the all-or-nothing conversion of its values by a
partial function. `castValues_mapValues` and `mapValues_eq_of_castValues` say that a partial
function with a section converts the images under that section, and up to a normal form of the
values nothing else.
-/

set_option autoImplicit false
set_option relaxedAutoImplicit false

/-- A finite map from keys to values, without an order. -/
abbrev Dictionary (Key Value : Type*) := Finmap fun _ : Key ↦ Value

namespace Dictionary

variable {Key Value Image : Type*}

/-- The values, each as often as it occurs. -/
def values (entries : Dictionary Key Value) : Multiset Value := entries.entries.map Sigma.snd

/-- Applies a function to every value. -/
def mapValues (convert : Value → Image) (entries : Dictionary Key Value) :
    Dictionary Key Image where
  entries := entries.entries.map fun entry ↦ ⟨entry.1, convert entry.2⟩
  nodupKeys := by
    have hkeys : Multiset.keys (entries.entries.map fun entry ↦
        (⟨entry.1, convert entry.2⟩ : Σ _ : Key, Image)) = entries.entries.keys := by
      simp only [Multiset.keys, Multiset.map_map, Function.comp_def]
    rw [← Multiset.nodup_keys, hkeys]
    exact entries.nodupKeys.nodup_keys

theorem card_values (entries : Dictionary Key Value) : entries.values.card = entries.keys.card := by
  rw [values, Multiset.card_map]
  exact (Multiset.card_map Sigma.fst entries.entries).symm

@[simp] theorem keys_mapValues (convert : Value → Image) (entries : Dictionary Key Value) :
    (entries.mapValues convert).keys = entries.keys := by
  ext key
  simp only [Finmap.mem_keys, Finmap.mem_def, mapValues, Multiset.keys, Multiset.map_map,
    Function.comp_def]

variable [DecidableEq Key]

@[simp] theorem keys_insert (entries : Dictionary Key Value) (key : Key) (value : Value) :
    (entries.insert key value).keys = insert key entries.keys := by
  ext other
  rw [Finmap.mem_keys, Finmap.mem_insert, Finset.mem_insert, Finmap.mem_keys]

theorem mem_entries_iff {entries : Dictionary Key Value} {key : Key} {value : Value} :
    (⟨key, value⟩ : Σ _ : Key, Value) ∈ entries.entries ↔ entries.lookup key = some value := by
  induction entries using Finmap.induction_on with
  | H assoc =>
    rw [Finmap.lookup_toFinmap]
    exact (AList.mem_lookup_iff (s := assoc)).symm

theorem mem_values_iff {entries : Dictionary Key Value} {value : Value} :
    value ∈ entries.values ↔ ∃ key, entries.lookup key = some value := by
  simp only [values, Multiset.mem_map, Sigma.exists, mem_entries_iff]
  exact ⟨fun ⟨key, _, hlookup, heq⟩ ↦ ⟨key, heq ▸ hlookup⟩, fun ⟨key, hkey⟩ ↦
    ⟨key, value, hkey, rfl⟩⟩

@[simp] theorem lookup_mapValues (convert : Value → Image) (entries : Dictionary Key Value)
    (key : Key) : (entries.mapValues convert).lookup key = (entries.lookup key).map convert := by
  ext image
  rw [← mem_entries_iff, Option.map_eq_some_iff]
  simp only [mapValues, Multiset.mem_map, Sigma.exists, mem_entries_iff, Sigma.mk.injEq,
    heq_eq_eq]
  constructor
  · rintro ⟨_, value, hlookup, rfl, himage⟩
    exact ⟨value, hlookup, himage⟩
  · rintro ⟨value, hlookup, himage⟩
    exact ⟨key, value, hlookup, rfl, himage⟩

/-- A dictionary is empty precisely when it has no keys. -/
theorem eq_empty_iff_keys {entries : Dictionary Key Value} : entries = ∅ ↔ entries.keys = ∅ := by
  constructor
  · rintro rfl
    exact Finmap.keys_empty
  · intro hkeys
    refine Finmap.ext_lookup fun key ↦ ?_
    rw [Finmap.lookup_empty, Finmap.lookup_eq_none, ← Finmap.mem_keys, hkeys]
    exact Finset.notMem_empty key

@[simp] theorem mapValues_eq_empty_iff {convert : Value → Image} {entries : Dictionary Key Value} :
    entries.mapValues convert = ∅ ↔ entries = ∅ := by
  rw [eq_empty_iff_keys, eq_empty_iff_keys, keys_mapValues]

section Cast

variable [Inhabited Image]

/-- Converts every value by a partial function, or fails when one value is not converted. -/
def castValues (cast : Value → Option Image) (entries : Dictionary Key Value) :
    Option (Dictionary Key Image) :=
  if ∀ value ∈ entries.values, (cast value).isSome then
    some (entries.mapValues fun value ↦ (cast value).getD default)
  else none

/-- Assumes: the partial function converts every image under `convert` back. -/
theorem castValues_mapValues {convert : Image → Value} {cast : Value → Option Image}
    (hcast : ∀ image, cast (convert image) = some image) (entries : Dictionary Key Image) :
    (entries.mapValues convert).castValues cast = some entries := by
  have hall : ∀ value ∈ (entries.mapValues convert).values, (cast value).isSome := by
    intro value hvalue
    obtain ⟨key, hkey⟩ := mem_values_iff.mp hvalue
    rw [lookup_mapValues, Option.map_eq_some_iff] at hkey
    obtain ⟨image, _, rfl⟩ := hkey
    rw [hcast, Option.isSome_some]
  rw [castValues, if_pos hall, Option.some.injEq]
  refine Finmap.ext_lookup fun key ↦ ?_
  rw [lookup_mapValues, lookup_mapValues, Option.map_map]
  cases entries.lookup key with
  | none => rfl
  | some image => simp only [Option.map_some, Function.comp_apply, hcast, Option.getD_some]

/-- Assumes: the partial function converts only values whose normal form is an image under
`convert`. -/
theorem mapValues_eq_of_castValues {normal : Value → Value} {convert : Image → Value}
    {cast : Value → Option Image}
    (hcast : ∀ value image, cast value = some image → normal value = convert image)
    {entries : Dictionary Key Value} {images : Dictionary Key Image}
    (himages : entries.castValues cast = some images) :
    entries.mapValues normal = images.mapValues convert := by
  unfold castValues at himages
  split_ifs at himages with hall
  obtain rfl := Option.some.inj himages
  refine Finmap.ext_lookup fun key ↦ ?_
  rw [lookup_mapValues, lookup_mapValues, lookup_mapValues, Option.map_map]
  cases hlookup : entries.lookup key with
  | none => rfl
  | some value =>
    obtain ⟨image, himage⟩ := Option.isSome_iff_exists.mp
      (hall value (mem_values_iff.mpr ⟨key, hlookup⟩))
    simp only [Option.map_some, Function.comp_apply, himage, Option.getD_some, Option.some.injEq]
    exact hcast value image himage

end Cast

end Dictionary
