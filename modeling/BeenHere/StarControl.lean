import Mathlib.Algebra.Order.Round
import Mathlib.Data.Rat.Floor
import BeenHere.Library.PartialRun
import BeenHere.Locator

/-!
# The star control of a detail page

What the bundled `CosmosView` computes from touches and from the accessibility actions, and what the
detail page makes of it: `viewDidLoad` seeds the control with the stored rating, and
`didFinishTouchingCosmos` rates the place with the truncated rating of the control. A touch clamps
the rating to the lowest touch rating and the number of stars, and an increment goes to a star, but
a decrement leaves a rating below the lowest touch rating where it is, and submits it. So all
submitted ratings are from 1 to 5 exactly if the stored rating is at least 1 or the first
interaction is not a decrement (`submitted_iff`).

The stars, texts and labels that the control draws are left out, and so is `didTouchCosmos`, which
prints a line.
-/

set_option autoImplicit false
set_option relaxedAutoImplicit false

namespace BeenHere

/-! ### The control -/

inductive StarFillMode
  | full
  | half
  | precise
  deriving DecidableEq

/-- The `CosmosSettings` that the input of the control depends on, with their defaults. -/
structure CosmosSettings where
  fillMode : StarFillMode := .full
  starMargin : ℚ := 5
  starSize : ℚ := 20
  totalStars : ℤ := 5
  minTouchRating : ℚ := 1
  updateOnTouch : Bool := true

namespace CosmosRating

/-- The argument is not negative, so that rounding half up is rounding half away from zero. -/
def roundFillLevel (starFillLevel : ℚ) : StarFillMode → ℚ
  | .full => round starFillLevel
  | .half => round (starFillLevel * 2) / 2
  | .precise => starFillLevel

def starFillLevel (ratingRemainder : ℚ) (fillMode : StarFillMode) : ℚ :=
  let result := if ratingRemainder > 1 then 1 else ratingRemainder
  roundFillLevel (if result < 0 then 0 else result) fillMode

def displayedRatingFromPreciseRating (preciseRating : ℚ) (fillMode : StarFillMode)
    (totalStars : ℤ) : ℚ :=
  let starFloorNumber : ℚ := ⌊preciseRating⌋
  let singleStarRemainder := preciseRating - starFloorNumber
  let displayedRating := starFloorNumber + starFillLevel singleStarRemainder fillMode
  max 0 (min (totalStars : ℚ) displayedRating)

end CosmosRating

namespace CosmosTouch

def preciseRating (position : ℚ) (numberOfStars : ℤ) (starSize starMargin : ℚ) : ℚ :=
  if position < 0 then 0
  else
    let rating : ℤ := truncate (position / (starSize + starMargin))
    let positionRemainder := position - rating * (starSize + starMargin)
    if rating > numberOfStars then numberOfStars
    else if positionRemainder > starSize then rating + 1
    else rating + positionRemainder / starSize

def touchRating (position : ℚ) (settings : CosmosSettings) : ℚ :=
  let precise :=
    preciseRating position settings.totalStars settings.starSize settings.starMargin
  let rating := match settings.fillMode with
    | .half => precise + 20 / 100
    | .full => precise + 45 / 100
    | .precise => precise
  max settings.minTouchRating
    (CosmosRating.displayedRatingFromPreciseRating rating settings.fillMode settings.totalStars)

end CosmosTouch

namespace CosmosAccessibility

def accessibilityIncrement (rating : ℚ) (settings : CosmosSettings) : ℚ :=
  if rating ≥ settings.totalStars then 0
  else match settings.fillMode with
    | .full => if ⌈rating⌉ - rating = 0 then 1 else ⌈rating⌉ - rating
    | .half | .precise =>
      if (⌈rating * 2⌉ - rating * 2) / 2 = 0 then 1 / 2 else (⌈rating * 2⌉ - rating * 2) / 2

def accessibilityDecrement (rating : ℚ) (settings : CosmosSettings) : ℚ :=
  if rating ≤ settings.minTouchRating then 0
  else match settings.fillMode with
    | .full => if rating - ⌊rating⌋ = 0 then 1 else rating - ⌊rating⌋
    | .half | .precise =>
      if (rating * 2 - ⌊rating * 2⌋) / 2 = 0 then 1 / 2 else (rating * 2 - ⌊rating * 2⌋) / 2

end CosmosAccessibility

/-- A `CosmosView`, with the direction of the language and the width of its bounds. -/
structure CosmosView where
  rating : ℚ
  settings : CosmosSettings
  isRightToLeft : Bool
  width : ℚ

namespace CosmosView

def touchLocationFromBeginningOfRating (view : CosmosView) (x : ℚ) : ℚ :=
  if view.isRightToLeft then view.width - x else x

def onDidTouch (view : CosmosView) (locationX : ℚ) : CosmosView :=
  { view with
    rating :=
      if view.settings.updateOnTouch then CosmosTouch.touchRating locationX view.settings
      else view.rating }

/-- `touchesBegan` and `touchesMoved`, with a touch at a horizontal location in the view. -/
def touched (view : CosmosView) (x : ℚ) : CosmosView :=
  view.onDidTouch (view.touchLocationFromBeginningOfRating x)

def accessibilityIncrement (view : CosmosView) : CosmosView :=
  { view with
    rating := view.rating + CosmosAccessibility.accessibilityIncrement view.rating view.settings }

def accessibilityDecrement (view : CosmosView) : CosmosView :=
  { view with
    rating := view.rating - CosmosAccessibility.accessibilityDecrement view.rating view.settings }

/-- What `Main.storyboard` sets for the control of the detail page. -/
def storyboardSettings : CosmosSettings where
  starMargin := 0
  fillMode := .full
  updateOnTouch := true
  totalStars := 5
  starSize := 25

/-- The control of the detail page when it comes out of `Main.storyboard`. -/
def mainStoryboard (isRightToLeft : Bool) (width : ℚ) : CosmosView where
  rating := 9
  settings := storyboardSettings
  isRightToLeft := isRightToLeft
  width := width

end CosmosView

/-! ### The page -/

/-- A detail page with its control. `touching` says whether a touch is under way, and `submitted`
lists the ratings that were passed to `Places.rate`, oldest first. -/
structure RatingPage where
  currentUser : Option String
  detailPlace : Place
  starRatingCosmosView : CosmosView
  touching : Bool
  submitted : List ℤ

namespace RatingPage

def viewDidLoad (currentUser : Option String) (detailPlace : Place) (view : CosmosView) :
    RatingPage :=
  ⟨currentUser, detailPlace, { view with rating := detailPlace.rating }, false, []⟩

def didFinishTouchingCosmos (page : RatingPage) (rating : ℚ) : RatingPage :=
  { page with
    detailPlace := Places.rate page.currentUser page.detailPlace (truncate rating)
    submitted := page.submitted ++ [truncate rating] }

/-- What the user does to the control. -/
inductive Interaction
  | touchesBegan (x : ℚ)
  | touchesMoved (x : ℚ)
  | touchesEnded
  | touchesCancelled
  | accessibilityIncrement
  | accessibilityDecrement
  deriving DecidableEq

/-- The control with a rating, after which `didFinishTouchingCosmos` is called. -/
def finish (page : RatingPage) (view : CosmosView) : RatingPage :=
  didFinishTouchingCosmos { page with starRatingCosmosView := view } view.rating

/-- A touch moves, ends or is cancelled only after it has begun. -/
def step (page : RatingPage) : Interaction → Option RatingPage
  | .touchesBegan x =>
    if page.touching then none
    else some { page with
      starRatingCosmosView := page.starRatingCosmosView.touched x, touching := true }
  | .touchesMoved x =>
    if page.touching then
      some { page with starRatingCosmosView := page.starRatingCosmosView.touched x }
    else none
  | .touchesEnded | .touchesCancelled =>
    if page.touching then some { page.finish page.starRatingCosmosView with touching := false }
    else none
  | .accessibilityIncrement =>
    some (page.finish page.starRatingCosmosView.accessibilityIncrement)
  | .accessibilityDecrement =>
    some (page.finish page.starRatingCosmosView.accessibilityDecrement)

end RatingPage

/-! ### The bounds of the inputs -/

theorem truncate_of_nonneg {value : ℚ} (h : 0 ≤ value) : truncate value = ⌊value⌋ := by
  rw [truncate, Int.tdiv_eq_ediv_of_nonneg (Rat.num_nonneg.mpr h)]
  exact Rat.floor_def'.symm

/-- The truncation of a rating from 1 to 5 is from 1 to 5. -/
theorem truncate_mem {value : ℚ} (hlow : 1 ≤ value) (hhigh : value ≤ 5) :
    1 ≤ truncate value ∧ truncate value ≤ 5 := by
  rw [truncate_of_nonneg (zero_le_one.trans hlow)]
  exact ⟨Int.le_floor.mpr (by exact_mod_cast hlow), Int.floor_le_iff.mpr (by push_cast; linarith)⟩

section Bounds

variable {settings : CosmosSettings} {rating : ℚ}

/-- A touch at any position gives a rating from the lowest touch rating to the number of stars. -/
theorem touchRating_mem (settings : CosmosSettings) (position : ℚ)
    (hlow : settings.minTouchRating ≤ settings.totalStars) (hstars : 0 ≤ settings.totalStars) :
    settings.minTouchRating ≤ CosmosTouch.touchRating position settings ∧
      CosmosTouch.touchRating position settings ≤ settings.totalStars :=
  ⟨le_max_left .., max_le hlow (max_le (by exact_mod_cast hstars) (min_le_left ..))⟩

/-- An increment goes up to the next star, unless the rating is at the last one. -/
theorem add_accessibilityIncrement (hmode : settings.fillMode = .full)
    (hrating : rating < settings.totalStars) :
    rating + CosmosAccessibility.accessibilityIncrement rating settings = ⌊rating⌋ + 1 := by
  simp only [CosmosAccessibility.accessibilityIncrement, hmode, if_neg (not_le_of_gt hrating)]
  split_ifs with hstar
  · have hfloor : (⌊rating⌋ : ℚ) = rating := by
      rw [← sub_eq_zero.mp hstar, Int.floor_intCast]
    rw [hfloor]
  · have hnext : ⌈rating⌉ = ⌊rating⌋ + 1 := by
      refine (Int.ceil_eq_floor_add_one_iff_notMem rating).mpr ?_
      rintro ⟨star, rfl⟩
      exact hstar (by rw [Int.ceil_intCast, sub_self])
    rw [add_sub_cancel, hnext, Int.cast_add, Int.cast_one]

/-- A decrement goes down to the next star, unless the rating is at or below the lowest touch
rating. -/
theorem sub_accessibilityDecrement (hmode : settings.fillMode = .full)
    (hrating : settings.minTouchRating < rating) :
    rating - CosmosAccessibility.accessibilityDecrement rating settings = ⌈rating⌉ - 1 := by
  simp only [CosmosAccessibility.accessibilityDecrement, hmode, if_neg (not_le_of_gt hrating)]
  split_ifs with hstar
  · have hceil : (⌈rating⌉ : ℚ) = rating := by
      rw [sub_eq_zero.mp hstar, Int.ceil_intCast]
    rw [hceil]
  · have hnext : ⌈rating⌉ = ⌊rating⌋ + 1 := by
      refine (Int.ceil_eq_floor_add_one_iff_notMem rating).mpr ?_
      rintro ⟨star, rfl⟩
      exact hstar (by rw [Int.floor_intCast, sub_self])
    rw [sub_sub_cancel, hnext, Int.cast_add, Int.cast_one, add_sub_cancel_right]

/-- Assumes: full stars. An increment of a rating among the stars gives a rating of at least one
star. -/
theorem add_accessibilityIncrement_mem (settings : CosmosSettings)
    (hmode : settings.fillMode = .full) (hstars : 1 ≤ settings.totalStars) (hlow : 0 ≤ rating)
    (hhigh : rating ≤ settings.totalStars) :
    1 ≤ rating + CosmosAccessibility.accessibilityIncrement rating settings ∧
      rating + CosmosAccessibility.accessibilityIncrement rating settings ≤
        settings.totalStars := by
  rcases lt_or_eq_of_le hhigh with hless | hlast
  · have hfloor : 0 ≤ ⌊rating⌋ := Int.floor_nonneg.mpr hlow
    have hnext : ⌊rating⌋ + 1 ≤ settings.totalStars := Int.floor_lt.mpr hless
    rw [add_accessibilityIncrement hmode hless]
    exact ⟨by exact_mod_cast Int.le_add_of_nonneg_left hfloor, by exact_mod_cast hnext⟩
  · rw [CosmosAccessibility.accessibilityIncrement, if_pos hlast.ge, add_zero]
    exact ⟨hlast ▸ by exact_mod_cast hstars, hhigh⟩

/-- Assumes: full stars, the lowest touch rating 1 and a rating of at least one star. A decrement
gives a rating of at least one star, and does not go up. -/
theorem sub_accessibilityDecrement_mem (settings : CosmosSettings)
    (hmode : settings.fillMode = .full) (hmin : settings.minTouchRating = 1) (hlow : 1 ≤ rating) :
    1 ≤ rating - CosmosAccessibility.accessibilityDecrement rating settings ∧
      rating - CosmosAccessibility.accessibilityDecrement rating settings ≤ rating := by
  rcases lt_or_eq_of_le hlow with hmore | hone
  · have hceil : 1 < ⌈rating⌉ := Int.lt_ceil.mpr (by exact_mod_cast hmore)
    rw [sub_accessibilityDecrement hmode (hmin ▸ hmore)]
    have hlast : 1 ≤ ⌈rating⌉ - 1 := Int.le_sub_one_of_lt hceil
    exact ⟨by exact_mod_cast hlast, (sub_lt_iff_lt_add.mpr (Int.ceil_lt_add_one rating)).le⟩
  · rw [CosmosAccessibility.accessibilityDecrement, if_pos (by rw [hmin, ← hone]), sub_zero]
    exact ⟨hlow, le_rfl⟩

end Bounds

namespace RatingPage

/-! ### Runs -/

variable {page next : RatingPage} {interaction : Interaction}

/-- The control of the storyboard with a rating from `low` to 5, and no submitted rating outside 1
to 5. -/
structure Within (low : ℚ) (page : RatingPage) : Prop where
  settings : page.starRatingCosmosView.settings = CosmosView.storyboardSettings
  low : low ≤ page.starRatingCosmosView.rating
  high : page.starRatingCosmosView.rating ≤ 5
  submitted : ∀ rating ∈ page.submitted, 1 ≤ rating ∧ rating ≤ 5

/-- The control keeps its settings. Assumes: its new rating is from 1 to 5. -/
theorem Within.finish {low : ℚ} (h : page.Within low) {view : CosmosView}
    (hsettings : view.settings = page.starRatingCosmosView.settings) (hlow : 1 ≤ view.rating)
    (hhigh : view.rating ≤ 5) : (page.finish view).Within 1 where
  settings := hsettings.trans h.settings
  low := hlow
  high := hhigh
  submitted rating hrating := by
    rcases List.mem_append.mp hrating with hold | hnew
    · exact h.submitted rating hold
    · rw [List.mem_singleton.mp hnew]
      exact truncate_mem hlow hhigh

/-- A touch at any position. -/
theorem Within.touched {low : ℚ} (h : page.Within low) (x : ℚ) :
    Within 1 { page with
      starRatingCosmosView := page.starRatingCosmosView.touched x, touching := true } := by
  have hrating := touchRating_mem CosmosView.storyboardSettings
    (page.starRatingCosmosView.touchLocationFromBeginningOfRating x) (by decide) (by decide)
  have htouched : (page.starRatingCosmosView.touched x).rating =
      CosmosTouch.touchRating (page.starRatingCosmosView.touchLocationFromBeginningOfRating x)
        CosmosView.storyboardSettings := by
    rw [CosmosView.touched, CosmosView.onDidTouch, h.settings]
    rfl
  rw [← htouched] at hrating
  exact ⟨h.settings, hrating.1, hrating.2, h.submitted⟩

/-- An increment of a rating from 0 to 5. -/
theorem Within.accessibilityIncrement (h : page.Within 0) :
    (page.finish page.starRatingCosmosView.accessibilityIncrement).Within 1 := by
  have hrating := add_accessibilityIncrement_mem CosmosView.storyboardSettings rfl (by decide)
    h.low (by exact_mod_cast h.high)
  rw [← h.settings] at hrating
  exact h.finish rfl hrating.1 (hrating.2.trans (by rw [h.settings]; exact le_rfl))

/-- A decrement of a rating from 1 to 5. -/
theorem Within.accessibilityDecrement (h : page.Within 1) :
    (page.finish page.starRatingCosmosView.accessibilityDecrement).Within 1 := by
  have hrating := sub_accessibilityDecrement_mem CosmosView.storyboardSettings rfl rfl h.low
  rw [← h.settings] at hrating
  exact h.finish rfl hrating.1 (hrating.2.trans h.high)

/-- One interaction. Assumes: the rating is at least 1 already while a touch is under way, and
before a decrement. -/
theorem Within.step (h : page.Within 0)
    (hlow : page.touching = true ∨ interaction = .accessibilityDecrement → page.Within 1)
    (hstep : page.step interaction = some next) : next.Within 1 := by
  cases interaction with
  | touchesBegan x =>
    unfold RatingPage.step at hstep
    split_ifs at hstep
    obtain rfl := Option.some.inj hstep
    exact h.touched x
  | touchesMoved x =>
    unfold RatingPage.step at hstep
    split_ifs at hstep with htouching
    obtain rfl := Option.some.inj hstep
    have hmoved := h.touched x
    rwa [← htouching] at hmoved
  | touchesEnded | touchesCancelled =>
    unfold RatingPage.step at hstep
    split_ifs at hstep with htouching
    obtain rfl := Option.some.inj hstep
    have hwithin := hlow (Or.inl htouching)
    have hfinished := hwithin.finish rfl hwithin.low hwithin.high
    exact ⟨hfinished.settings, hfinished.low, hfinished.high, hfinished.submitted⟩
  | accessibilityIncrement =>
    obtain rfl := Option.some.inj hstep
    exact h.accessibilityIncrement
  | accessibilityDecrement =>
    obtain rfl := Option.some.inj hstep
    exact (hlow (Or.inr rfl)).accessibilityDecrement

theorem Within.weaken (h : page.Within 1) : page.Within 0 :=
  ⟨h.settings, zero_le_one.trans h.low, h.high, h.submitted⟩

theorem Within.run {final : RatingPage} {interactions : List Interaction} (h : page.Within 1)
    (hrun : PartialRun.run RatingPage.step page interactions = some final) : final.Within 1 :=
  PartialRun.run_invariant_on
    (fun _ _ _ _ hwithin hstep ↦ Within.step (Within.weaken hwithin) (fun _ ↦ hwithin) hstep) h hrun

/-- What has been submitted stays submitted. -/
theorem mem_submitted_of_step {rating : ℤ} (h : rating ∈ page.submitted)
    (hstep : page.step interaction = some next) : rating ∈ next.submitted := by
  cases interaction with
  | touchesBegan x | touchesMoved x =>
    unfold step at hstep
    split_ifs at hstep
    exact Option.some.inj hstep ▸ h
  | touchesEnded | touchesCancelled =>
    unfold step at hstep
    split_ifs at hstep
    exact Option.some.inj hstep ▸ List.mem_append_left _ h
  | accessibilityIncrement | accessibilityDecrement =>
    exact Option.some.inj hstep ▸ List.mem_append_left _ h

theorem within_viewDidLoad {detailPlace : Place} {low : ℚ} (hlow : low ≤ detailPlace.rating)
    (hhigh : detailPlace.rating ≤ 5) (currentUser : Option String) (isRightToLeft : Bool)
    (width : ℚ) :
    (viewDidLoad currentUser detailPlace (CosmosView.mainStoryboard isRightToLeft width)).Within
      low :=
  ⟨rfl, hlow, hhigh, fun _ hrating ↦ (List.not_mem_nil hrating).elim⟩

/-- Assumes: a place whose stored rating is from 0 to 5. In a run of interactions on its detail page
every rating that is submitted is from 1 to 5 exactly if the stored rating is at least 1 or the
first interaction is not an accessibility decrement. -/
theorem submitted_iff {currentUser : Option String} {detailPlace : Place}
    (hlow : 0 ≤ detailPlace.rating) (hhigh : detailPlace.rating ≤ 5) {isRightToLeft : Bool}
    {width : ℚ} {interactions : List Interaction} {final : RatingPage}
    (hrun : PartialRun.run step
      (viewDidLoad currentUser detailPlace (CosmosView.mainStoryboard isRightToLeft width))
      interactions = some final) :
    (∀ rating ∈ final.submitted, 1 ≤ rating ∧ rating ≤ 5) ↔
      1 ≤ detailPlace.rating ∨ interactions.head? ≠ some .accessibilityDecrement := by
  have hloaded := within_viewDidLoad hlow hhigh currentUser isRightToLeft width
  constructor
  · intro hsubmitted
    by_contra hboth
    push Not at hboth
    obtain ⟨hless, hfirst⟩ := hboth
    obtain ⟨rest, rfl⟩ := List.head?_eq_some_iff.mp hfirst
    obtain ⟨next, hstep, hrest⟩ := PartialRun.run_cons_eq_some.mp hrun
    -- the decrement leaves the stored rating, which is truncated to 0
    have hsame : CosmosAccessibility.accessibilityDecrement detailPlace.rating
        CosmosView.storyboardSettings = 0 := if_pos hless.le
    have hfloor : truncate detailPlace.rating = 0 := by
      rw [truncate_of_nonneg hlow]
      exact Int.floor_eq_zero_iff.mpr ⟨hlow, hless⟩
    have hzero : (0 : ℤ) ∈ next.submitted := by
      rw [← Option.some.inj hstep]
      refine List.mem_append_right _ (List.mem_singleton.mpr ?_)
      show 0 = truncate (detailPlace.rating -
        CosmosAccessibility.accessibilityDecrement detailPlace.rating CosmosView.storyboardSettings)
      rw [hsame, sub_zero, hfloor]
    have hkept : ∀ interaction ∈ rest, ∀ page next : RatingPage, (0 : ℤ) ∈ page.submitted →
        step page interaction = some next → (0 : ℤ) ∈ next.submitted :=
      fun _ _ _ _ ↦ mem_submitted_of_step
    have hfinal := PartialRun.run_invariant_on hkept hzero hrest
    exact absurd (hsubmitted 0 hfinal).1 (by decide)
  · intro hcondition
    cases interactions with
    | nil =>
      rw [← Option.some.inj hrun]
      exact hloaded.submitted
    | cons first rest =>
      obtain ⟨next, hstep, hrest⟩ := PartialRun.run_cons_eq_some.mp hrun
      refine (Within.run (Within.step hloaded ?_ hstep) hrest).submitted
      rintro (htouching | rfl)
      · cases htouching
      · have hone := hcondition.resolve_right fun hfirst ↦ hfirst rfl
        exact within_viewDidLoad hone hhigh currentUser isRightToLeft width

/-- A place that nobody has rated: a touch on the fourth star, and then a decrement. -/
theorem submitted_iff_sample : ∃ final,
    PartialRun.run step (viewDidLoad none samplePlace (CosmosView.mainStoryboard false 125))
      [.touchesBegan 90, .touchesEnded, .accessibilityDecrement] = some final ∧
    final.submitted = [4, 3] ∧
    ((∀ rating ∈ final.submitted, 1 ≤ rating ∧ rating ≤ 5) ↔
      1 ≤ samplePlace.rating ∨
        [Interaction.touchesBegan 90, .touchesEnded, .accessibilityDecrement].head? ≠
          some .accessibilityDecrement) := by
  have hruns : (PartialRun.run step
      (viewDidLoad none samplePlace (CosmosView.mainStoryboard false 125))
      [.touchesBegan 90, .touchesEnded, .accessibilityDecrement]).map (fun final ↦
        decide (final.submitted = [4, 3])) = some true := by decide +kernel
  obtain ⟨final, hrun, hsubmitted⟩ := Option.map_eq_some_iff.mp hruns
  exact ⟨final, hrun, of_decide_eq_true hsubmitted,
    submitted_iff (by decide +kernel) (by decide +kernel) hrun⟩

/-- A decrement on the page of a place that nobody has rated submits 0. -/
theorem submitted_counterexample :
    0 ≤ samplePlace.rating ∧ samplePlace.rating ≤ 5 ∧ ∃ final,
      PartialRun.run step (viewDidLoad none samplePlace (CosmosView.mainStoryboard false 125))
        [.accessibilityDecrement] = some final ∧
      ¬ ∀ rating ∈ final.submitted, 1 ≤ rating ∧ rating ≤ 5 := by
  have hruns : (PartialRun.run step
      (viewDidLoad none samplePlace (CosmosView.mainStoryboard false 125))
      [.accessibilityDecrement]).map (fun final ↦ decide (0 ∈ final.submitted)) = some true := by
    decide +kernel
  obtain ⟨final, hrun, hzero⟩ := Option.map_eq_some_iff.mp hruns
  refine ⟨by decide +kernel, by decide +kernel, final, hrun, fun hsubmitted ↦ ?_⟩
  exact absurd (hsubmitted 0 (of_decide_eq_true hzero)).1 (by decide)

end RatingPage

end BeenHere
