import BeenHere.PlaceRecord
import BeenHere.Pages

/-!
# The downloads of an opened place

`prepare` loads the images of a place from the documents directory, and for each name that is not
there it calls `getPlacesDataForPlace`, which itself requests every image of the place. So the
images are right, and the requests are one for each missing name exactly if no name is missing or
the place has one image. An image name that leads to a directory traps (`opensExactly_iff`).
-/

set_option autoImplicit false
set_option relaxedAutoImplicit false

namespace BeenHere

open ObjectHeap

namespace App

/-- What opening a place should do: return, load each image that the documents directory has and the
place has not, change no other image, and request each image that the directory does not have
once. -/
def OpensExactly (app : App) (place : Ref) : Prop :=
  ∃ prepared, app.prepare place = some prepared ∧
    (∀ name, (prepared.heap.read place).placeImages.lookup name =
      if name ∈ (app.heap.read place).imageNames then
        ((app.heap.read place).placeImages.lookup name).or (app.documents.lookup name)
      else (app.heap.read place).placeImages.lookup name) ∧
    ∃ added, prepared.requests = app.requests ++ added ∧
      ∀ name, (added.map ImageRequest.name).count name =
        if name ∈ (app.heap.read place).imageNames ∧ app.documents.lookup name = none then 1 else 0

/-- The image names of a place that the documents directory has no image for. -/
def missingNames (app : App) (place : Ref) : List String :=
  (app.heap.read place).imageNames.filter fun name ↦ app.documents.lookup name = none

/-- Every missing name requests every image. -/
theorem count_requests_prepare {app prepared : App} {place : Ref}
    (hprepare : app.prepare place = some prepared) {added : List ImageRequest}
    (hadded : prepared.requests = app.requests ++ added) (name : String) :
    (added.map ImageRequest.name).count name =
      (app.missingNames place).length * (app.heap.read place).imageNames.count name := by
  rw [(prepared_prepare hprepare).requests, List.append_cancel_left_eq] at hadded
  rw [← hadded, missingNames]
  generalize hall : (app.heap.read place).imageNames = all
  suffices hrounds : ∀ names : List String,
      ((names.flatMap fun missing ↦ if app.documents.lookup missing = none then
        all.map fun image ↦ (⟨place, image, .allImages⟩ : ImageRequest) else []).map
          ImageRequest.name).count name =
        (names.filter fun name ↦ app.documents.lookup name = none).length * all.count name from
    hrounds all
  intro names
  induction names with
  | nil => simp
  | cons first rest ih =>
    rw [List.flatMap_cons, List.map_append, List.count_append, ih]
    by_cases hfirst : app.documents.lookup first = none
    · have hround : (all.map fun image ↦ (⟨place, image, .allImages⟩ : ImageRequest)).map
          ImageRequest.name = all := by
        rw [List.map_map]
        exact List.map_id all
      rw [if_pos hfirst, hround, List.filter_cons_of_pos (by simpa using hfirst),
        List.length_cons, Nat.succ_mul, Nat.add_comm]
    · rw [if_neg hfirst, List.filter_cons_of_neg (by simpa using hfirst), List.map_nil,
        List.count_nil, Nat.zero_add]

/-- Assumes: the image names of the place are distinct. Opening the place loads what it should, and
requests each missing image once and no other, exactly if no image name leads to a directory, and no
image is missing or the place has one image. -/
theorem opensExactly_iff (app : App) {place : Ref}
    (hnodup : (app.heap.read place).imageNames.Nodup) :
    app.OpensExactly place ↔
      (∀ name ∈ (app.heap.read place).imageNames, app.directories name = false) ∧
        ((∀ name ∈ (app.heap.read place).imageNames, app.documents.lookup name ≠ none) ∨
          (app.heap.read place).imageNames.length = 1) := by
  constructor
  · rintro ⟨prepared, hprepare, _, added, hadded, hexact⟩
    refine ⟨isSome_prepare_iff.mp (Option.isSome_of_eq_some hprepare), ?_⟩
    have hcount (name : String) (hname : name ∈ (app.heap.read place).imageNames) :
        (app.missingNames place).length = if app.documents.lookup name = none then 1 else 0 := by
      have hname' := hexact name
      rw [count_requests_prepare hprepare hadded, List.count_eq_one_of_mem hnodup hname,
        Nat.mul_one] at hname'
      simpa only [hname, true_and] using hname'
    by_contra hboth
    push Not at hboth
    obtain ⟨⟨name, hname, hmissing⟩, hlength⟩ := hboth
    have hone : (app.missingNames place).length = 1 := by
      rw [hcount name hname, if_pos hmissing]
    -- Each other name is requested along with the missing one, so it must be missing, too.
    have hall : app.missingNames place = (app.heap.read place).imageNames := by
      refine List.filter_eq_self.mpr fun other hother ↦ decide_eq_true ?_
      by_contra hpresent
      rw [hcount other hother, if_neg hpresent] at hone
      exact Nat.zero_ne_one hone
    exact hlength (hall ▸ hone)
  · rintro ⟨hfiles, hcondition⟩
    obtain ⟨prepared, hprepare⟩ := Option.isSome_iff_exists.mp (isSome_prepare_iff.mpr hfiles)
    have hprepared := prepared_prepare hprepare
    refine ⟨prepared, hprepare, hprepared.images, _, hprepared.requests, fun name ↦ ?_⟩
    rw [count_requests_prepare hprepare hprepared.requests, missingNames]
    rcases hcondition with hpresent | hlength
    · rw [List.filter_eq_nil_iff.mpr fun name hname ↦ by simpa using hpresent name hname,
        List.length_nil, Nat.zero_mul, if_neg fun h ↦ hpresent name h.1 h.2]
    · obtain ⟨only, honly⟩ := List.length_eq_one_iff.mp hlength
      rw [honly]
      by_cases hname : name = only
      · subst hname
        by_cases hmissing : app.documents.lookup name = none <;> simp [hmissing]
      · simp [hname, List.count_eq_zero]

/-- An app whose store holds a place with some images, and no image in the documents directory. -/
def imagesApp (imageNames : List String) : App :=
  { launched none ∅ sampleDirectories with
    heap := (launched none ∅ sampleDirectories).heap.alloc { samplePlace with imageNames }
    places := [0] }

theorem opensExactly_iff_sample :
    (imagesApp ["boyana.jpg", "vitosha.jpg"]).OpensExactly 0 ↔
      (∀ name ∈ ["boyana.jpg", "vitosha.jpg"],
        (imagesApp ["boyana.jpg", "vitosha.jpg"]).directories name = false) ∧
      ((∀ name ∈ ["boyana.jpg", "vitosha.jpg"],
          (imagesApp ["boyana.jpg", "vitosha.jpg"]).documents.lookup name ≠ none) ∨
        ["boyana.jpg", "vitosha.jpg"].length = 1) :=
  opensExactly_iff (imagesApp ["boyana.jpg", "vitosha.jpg"]) (by decide)

/-- Both images are missing, and each of them is requested twice. And an image name that leads to a
directory traps. -/
theorem opensExactly_counterexample :
    (((imagesApp ["boyana.jpg", "vitosha.jpg"]).heap.read 0).imageNames.Nodup ∧
      ((imagesApp ["boyana.jpg", "vitosha.jpg"]).prepare 0).map (fun prepared ↦
        (prepared.requests.map ImageRequest.name).count "boyana.jpg") = some 2 ∧
      ¬ (imagesApp ["boyana.jpg", "vitosha.jpg"]).OpensExactly 0) ∧
    (imagesApp [".."]).prepare 0 = none ∧ ¬ (imagesApp [".."]).OpensExactly 0 := by
  have htwice : ((imagesApp ["boyana.jpg", "vitosha.jpg"]).prepare 0).map (fun prepared ↦
      (prepared.requests.map ImageRequest.name).count "boyana.jpg") = some 2 := by
    decide +kernel
  have htrap : (imagesApp [".."]).prepare 0 = none := by
    rw [← Option.not_isSome_iff_eq_none, isSome_prepare_iff]
    decide
  refine ⟨⟨by decide, htwice, ?_⟩, htrap, ?_⟩
  · rintro ⟨prepared, hprepare, _, added, hadded, hexact⟩
    rw [hprepare, Option.map_some, Option.some.injEq, hadded] at htwice
    have hcount := hexact "boyana.jpg"
    rw [show (imagesApp ["boyana.jpg", "vitosha.jpg"]).requests = [] from rfl,
      List.nil_append] at htwice
    rw [htwice] at hcount
    revert hcount
    decide
  · rintro ⟨prepared, hprepare, _⟩
    rw [htrap] at hprepare
    cases hprepare

end App

end BeenHere
