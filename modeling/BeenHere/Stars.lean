import BeenHere.StarControl

/-!
# The stars of the control

What a `CosmosView` draws: a layer for each star, filled, empty or partly filled, and a text beside
them, from right to left where the language is. The loop over the stars hands each of them what the
earlier ones have left of the rating.

A rating to the precision of the mode is monotone (`CosmosRating.rounded_mono`) and keeps whole
stars apart (`CosmosRating.rounded_add_intCast`). What one star shows, the displayed rating and what
a touch gives are that rating within different bounds, and so the stars of a control show together
the displayed rating, whatever the mode and the rating (`shown_eq_displayedRating`).
-/

set_option autoImplicit false
set_option relaxedAutoImplicit false

namespace BeenHere

/-! ### Layers -/

/-- What a layer shows. A partly filled star has a filled star of some width on top of an empty one,
flipped in a language that is written from right to left. -/
inductive LayerContent
  | star (isFilled : Bool)
  | partialStar (filledWidth : ℚ) (isFlipped : Bool)
  | text (string : String)
  deriving DecidableEq

/-- A layer whose anchor point is its origin. -/
structure CALayer where
  content : LayerContent
  x : ℚ
  y : ℚ
  width : ℚ
  height : ℚ
  deriving DecidableEq

namespace CALayer

/-- `frame.maxX`. -/
def maxX (layer : CALayer) : ℚ := layer.x + layer.width

/-- `frame.maxY`. -/
def maxY (layer : CALayer) : ℚ := layer.y + layer.height

end CALayer

/-- The text of a view, with the size that the font gives it, and the `textMargin` of the
settings. -/
structure StarText where
  string : String
  width : ℚ
  height : ℚ
  textMargin : ℚ

namespace CosmosRating

def numberOfFilledStars (rating : ℚ) (totalNumberOfStars : ℤ) : ℚ :=
  if rating > totalNumberOfStars then totalNumberOfStars else if rating < 0 then 0 else rating

end CosmosRating

namespace CosmosLayers

/-- `createCompositeStarLayer`, at the origin. -/
def createCompositeStarLayer (starFillLevel : ℚ) (settings : CosmosSettings)
    (isRightToLeft : Bool) : CALayer where
  content :=
    if starFillLevel ≥ 1 then .star true
    else if starFillLevel = 0 then .star false
    else .partialStar (settings.starSize * starFillLevel) isRightToLeft
  x := 0
  y := 0
  width := settings.starSize
  height := settings.starSize

/-- The loop of `createStarLayers`, for what is left of the rating. -/
def createStars (settings : CosmosSettings) (isRightToLeft : Bool) (ratingRemander : ℚ) :
    ℕ → List CALayer
  | 0 => []
  | stars + 1 =>
    createCompositeStarLayer (CosmosRating.starFillLevel ratingRemander settings.fillMode) settings
        isRightToLeft ::
      createStars settings isRightToLeft (ratingRemander - 1) stars

/-- `positionStarLayers`, from a position. -/
def positionStarLayers (starMargin positionX : ℚ) : List CALayer → List CALayer
  | [] => []
  | layer :: rest =>
    { layer with x := positionX } ::
      positionStarLayers starMargin (positionX + (layer.width + starMargin)) rest

/-- A negative number of stars is the end of no range, and traps. -/
def createStarLayers (rating : ℚ) (settings : CosmosSettings) (isRightToLeft : Bool) :
    Option (List CALayer) :=
  if settings.totalStars < 0 then none
  else
    let starLayers := createStars settings isRightToLeft
      (CosmosRating.numberOfFilledStars rating settings.totalStars) settings.totalStars.toNat
    some (positionStarLayers settings.starMargin 0
      (if isRightToLeft then starLayers.reverse else starLayers))

end CosmosLayers

/-- The width and the height. -/
def CosmosSize.calculateSizeToFitLayers (layers : List CALayer) : ℚ × ℚ :=
  layers.foldl (fun size layer ↦
    (if layer.maxX > size.1 then layer.maxX else size.1,
      if layer.maxY > size.2 then layer.maxY else size.2)) (0, 0)

def CosmosText.position (layer : CALayer) (starsSize : ℚ × ℚ) (textMargin : ℚ) : CALayer :=
  { layer with x := starsSize.1 + textMargin, y := (starsSize.2 - layer.height) / 2 }

def CosmosLayerHelper.createTextLayer (text : StarText) : CALayer :=
  ⟨.text text.string, 0, 0, text.width, text.height⟩

namespace CosmosView

variable (view : CosmosView)

def createTextLayer (text : StarText) (layers : List CALayer) : CALayer :=
  let textLayer := CosmosLayerHelper.createTextLayer text
  let starsSize := CosmosSize.calculateSizeToFitLayers layers
  if view.isRightToLeft then CosmosText.position textLayer (0, starsSize.2) 0
  else CosmosText.position textLayer starsSize text.textMargin

def addTextLayer (textLayer : CALayer) (textMargin : ℚ) (layers : List CALayer) : List CALayer :=
  if view.isRightToLeft then
    textLayer :: layers.map fun starLayer ↦
      { starLayer with x := starLayer.x + (textLayer.width + textMargin) }
  else layers ++ [textLayer]

/-- The layers that `update` makes the sublayers of the view. -/
def sublayers (text : Option StarText) : Option (List CALayer) :=
  (CosmosLayers.createStarLayers view.rating view.settings view.isRightToLeft).map fun layers ↦
    text.elim layers fun text ↦
      view.addTextLayer (view.createTextLayer text layers) text.textMargin layers

/-- `update`: the layers, and the view with the size of what it shows. -/
def update (text : Option StarText) : Option (List CALayer × CosmosView) :=
  (view.sublayers text).map fun layers ↦
    (layers, { view with width := (CosmosSize.calculateSizeToFitLayers layers).1 })

end CosmosView

/-! ### Ratings to a precision -/

namespace CosmosRating

variable {rating : ℚ} {fillMode : StarFillMode}

/-- A rating to the precision of the mode. -/
def rounded (rating : ℚ) : StarFillMode → ℚ
  | .full => round rating
  | .half => round (rating * 2) / 2
  | .precise => rating

theorem round_mono {first second : ℚ} (h : first ≤ second) : round first ≤ round second := by
  rw [round_eq, round_eq]
  exact Int.floor_le_floor (by linarith)

theorem rounded_mono {first second : ℚ} (h : first ≤ second) (fillMode : StarFillMode) :
    rounded first fillMode ≤ rounded second fillMode := by
  cases fillMode with
  | full => exact Int.cast_le.mpr (round_mono h)
  | half =>
    have hround : (round (first * 2) : ℚ) ≤ round (second * 2) :=
      Int.cast_le.mpr (round_mono (by linarith))
    exact div_le_div_of_nonneg_right hround (by norm_num)
  | precise => exact h

/-- Stars are shown as they are. -/
theorem rounded_add_intCast (rating : ℚ) (stars : ℤ) (fillMode : StarFillMode) :
    rounded (rating + stars) fillMode = rounded rating fillMode + stars := by
  cases fillMode with
  | full =>
    rw [rounded, rounded, round_add_intCast, Int.cast_add]
  | half =>
    have hdouble : (rating + stars) * 2 = rating * 2 + ((stars * 2 : ℤ) : ℚ) := by
      push_cast
      ring
    rw [rounded, rounded, hdouble, round_add_intCast]
    push_cast
    ring
  | precise => rfl

theorem rounded_intCast (stars : ℤ) (fillMode : StarFillMode) :
    rounded stars fillMode = stars := by
  have hzero : rounded 0 fillMode = 0 := by cases fillMode <;> simp [rounded]
  have hstars := rounded_add_intCast 0 stars fillMode
  rwa [zero_add, hzero, zero_add] at hstars

theorem roundFillLevel_eq (starFillLevel : ℚ) (fillMode : StarFillMode) :
    roundFillLevel starFillLevel fillMode = rounded starFillLevel fillMode := by
  cases fillMode <;> rfl

/-- One star shows its part of the rating. -/
theorem starFillLevel_eq (ratingRemainder : ℚ) (fillMode : StarFillMode) :
    starFillLevel ratingRemainder fillMode =
      max 0 (min 1 (rounded ratingRemainder fillMode)) := by
  have hzero : rounded 0 fillMode = 0 := by exact_mod_cast rounded_intCast 0 fillMode
  have hone : rounded 1 fillMode = 1 := by exact_mod_cast rounded_intCast 1 fillMode
  rw [starFillLevel]
  by_cases hhigh : ratingRemainder > 1
  · have hmore := rounded_mono hhigh.le fillMode
    rw [hone] at hmore
    have hpositive : ¬ (1 : ℚ) < 0 := by norm_num
    simp only [hhigh, hpositive, if_true, if_false, roundFillLevel_eq, hone, min_eq_left hmore]
    exact (max_eq_right zero_le_one).symm
  · by_cases hlow : ratingRemainder < 0
    · have hless := rounded_mono hlow.le fillMode
      rw [hzero] at hless
      simp only [hhigh, hlow, if_false, if_true, roundFillLevel_eq, hzero]
      exact (max_eq_left (min_le_of_right_le hless)).symm
    · have hmore := rounded_mono (not_lt.mp hlow) fillMode
      have hless := rounded_mono (not_lt.mp hhigh) fillMode
      rw [hzero] at hmore
      rw [hone] at hless
      simp only [hhigh, hlow, if_false, roundFillLevel_eq]
      rw [min_eq_right hless, max_eq_right hmore]

/-- The displayed rating, which a touch gives too, is rounded and then clamped. -/
theorem displayedRatingFromPreciseRating_eq (preciseRating : ℚ) (fillMode : StarFillMode)
    (totalStars : ℤ) :
    displayedRatingFromPreciseRating preciseRating fillMode totalStars =
      max 0 (min (totalStars : ℚ) (rounded preciseRating fillMode)) := by
  have hremainder : preciseRating - ⌊preciseRating⌋ = Int.fract preciseRating := rfl
  have hlow : 0 ≤ rounded (Int.fract preciseRating) fillMode := by
    have hmono := rounded_mono (Int.fract_nonneg preciseRating) fillMode
    rwa [show rounded 0 fillMode = 0 by exact_mod_cast rounded_intCast 0 fillMode] at hmono
  have hhigh : rounded (Int.fract preciseRating) fillMode ≤ 1 := by
    have hmono := rounded_mono (Int.fract_lt_one preciseRating).le fillMode
    rwa [show rounded 1 fillMode = 1 by exact_mod_cast rounded_intCast 1 fillMode] at hmono
  have hsplit := rounded_add_intCast (Int.fract preciseRating) ⌊preciseRating⌋ fillMode
  rw [Int.fract_add_floor] at hsplit
  rw [displayedRatingFromPreciseRating]
  simp only [hremainder, starFillLevel_eq, min_eq_right hhigh, max_eq_right hlow]
  rw [hsplit, add_comm]

theorem rounded_numberOfFilledStars (rating : ℚ) (fillMode : StarFillMode) {totalStars : ℤ}
    (hstars : 0 ≤ totalStars) :
    rounded (numberOfFilledStars rating totalStars) fillMode =
      max 0 (min (totalStars : ℚ) (rounded rating fillMode)) := by
  have hzero : rounded 0 fillMode = 0 := by exact_mod_cast rounded_intCast 0 fillMode
  have hcast : (0 : ℚ) ≤ totalStars := by exact_mod_cast hstars
  rw [numberOfFilledStars]
  split_ifs with hhigh hlow
  · have hmore := rounded_mono hhigh.le fillMode
    rw [rounded_intCast] at hmore ⊢
    rw [min_eq_left hmore, max_eq_right hcast]
  · have hless := rounded_mono hlow.le fillMode
    rw [hzero] at hless ⊢
    exact (max_eq_left (min_le_of_right_le hless)).symm
  · have hmore := rounded_mono (not_lt.mp hlow) fillMode
    have hless := rounded_mono (not_lt.mp hhigh) fillMode
    rw [hzero] at hmore
    rw [rounded_intCast] at hless
    rw [min_eq_right hless, max_eq_right hmore]

end CosmosRating

/-! ### The layers -/

namespace CosmosLayers

variable {settings : CosmosSettings} {isRightToLeft : Bool}

theorem length_createStars (ratingRemander : ℚ) (stars : ℕ) :
    (createStars settings isRightToLeft ratingRemander stars).length = stars := by
  induction stars generalizing ratingRemander with
  | zero => rfl
  | succ stars ih => rw [createStars, List.length_cons, ih]

/-- Each star shows what the earlier ones have left of the rating. -/
theorem getElem?_createStars (ratingRemander : ℚ) {stars index : ℕ} (hindex : index < stars) :
    (createStars settings isRightToLeft ratingRemander stars)[index]? =
      some (createCompositeStarLayer
        (CosmosRating.starFillLevel (ratingRemander - index) settings.fillMode) settings
        isRightToLeft) := by
  induction stars generalizing ratingRemander index with
  | zero => exact absurd hindex (Nat.not_lt_zero _)
  | succ stars ih =>
    cases index with
    | zero =>
      rw [createStars, List.getElem?_cons_zero, Nat.cast_zero, sub_zero]
    | succ index =>
      rw [createStars, List.getElem?_cons_succ, ih _ (Nat.lt_of_succ_lt_succ hindex)]
      push_cast
      rw [sub_sub, add_comm (1 : ℚ)]

theorem length_positionStarLayers (starMargin positionX : ℚ) (layers : List CALayer) :
    (positionStarLayers starMargin positionX layers).length = layers.length := by
  induction layers generalizing positionX with
  | nil => rfl
  | cons layer rest ih => rw [positionStarLayers, List.length_cons, ih, List.length_cons]

/-- Layers of one width stand at equal distances. -/
theorem getElem?_positionStarLayers {starMargin width : ℚ} (positionX : ℚ) {layers : List CALayer}
    (hwidth : ∀ layer ∈ layers, layer.width = width) (index : ℕ) :
    (positionStarLayers starMargin positionX layers)[index]? =
      layers[index]?.map fun layer ↦
        { layer with x := positionX + index * (width + starMargin) } := by
  induction layers generalizing positionX index with
  | nil => rfl
  | cons layer rest ih =>
    cases index with
    | zero => simp [positionStarLayers]
    | succ index =>
      have hlayer := hwidth layer List.mem_cons_self
      rw [positionStarLayers, List.getElem?_cons_succ, List.getElem?_cons_succ,
        ih _ fun other hother ↦ hwidth other (List.mem_cons_of_mem _ hother), hlayer]
      refine congrArg (Option.map · rest[index]?) (funext fun other ↦ ?_)
      push_cast
      rw [add_assoc, ← one_add_mul, add_comm (1 : ℚ)]

theorem map_content_positionStarLayers (starMargin positionX : ℚ) (layers : List CALayer) :
    (positionStarLayers starMargin positionX layers).map CALayer.content =
      layers.map CALayer.content := by
  induction layers generalizing positionX with
  | nil => rfl
  | cons layer rest ih => rw [positionStarLayers, List.map_cons, ih, List.map_cons]

end CosmosLayers

/-- The part of a star that a layer shows as filled. -/
def LayerContent.fillLevel (starSize : ℚ) : LayerContent → ℚ
  | .star isFilled => if isFilled then 1 else 0
  | .partialStar filledWidth _ => filledWidth / starSize
  | .text _ => 0

theorem fillLevel_createCompositeStarLayer {settings : CosmosSettings}
    (hsize : settings.starSize ≠ 0) (isRightToLeft : Bool) (ratingRemainder : ℚ)
    (fillMode : StarFillMode) :
    (CosmosLayers.createCompositeStarLayer
      (CosmosRating.starFillLevel ratingRemainder fillMode) settings
        isRightToLeft).content.fillLevel settings.starSize =
      CosmosRating.starFillLevel ratingRemainder fillMode := by
  have hlevel : CosmosRating.starFillLevel ratingRemainder fillMode ≤ 1 := by
    rw [CosmosRating.starFillLevel_eq]
    exact max_le zero_le_one (min_le_left _ _)
  simp only [CosmosLayers.createCompositeStarLayer]
  split_ifs with hfilled hempty
  · exact le_antisymm hfilled hlevel
  · exact hempty.symm
  · exact mul_div_cancel_left₀ _ hsize

namespace CosmosLayers

variable {settings : CosmosSettings} {isRightToLeft : Bool}

/-- The fill levels of a number of stars, the first star first. -/
def fillLevels (settings : CosmosSettings) (isRightToLeft : Bool) (ratingRemander : ℚ)
    (stars : ℕ) : List ℚ :=
  (createStars settings isRightToLeft ratingRemander stars).map fun layer ↦
    layer.content.fillLevel settings.starSize

theorem fillLevels_succ (hsize : settings.starSize ≠ 0) (ratingRemander : ℚ) (stars : ℕ) :
    fillLevels settings isRightToLeft ratingRemander (stars + 1) =
      CosmosRating.starFillLevel ratingRemander settings.fillMode ::
        fillLevels settings isRightToLeft (ratingRemander - 1) stars := by
  rw [fillLevels, createStars, List.map_cons, fillLevel_createCompositeStarLayer hsize]
  rfl

/-- What the stars show together is the rating, clamped to their number. -/
theorem sum_fillLevels (hsize : settings.starSize ≠ 0) (ratingRemander : ℚ) (stars : ℕ) :
    (fillLevels settings isRightToLeft ratingRemander stars).sum =
      max 0 (min (stars : ℚ) (CosmosRating.rounded ratingRemander settings.fillMode)) := by
  induction stars generalizing ratingRemander with
  | zero =>
    rw [Nat.cast_zero]
    exact (max_eq_left (min_le_left _ _)).symm
  | succ stars ih =>
    have hnext : CosmosRating.rounded (ratingRemander - 1) settings.fillMode =
        CosmosRating.rounded ratingRemander settings.fillMode - 1 := by
      have hshift := CosmosRating.rounded_add_intCast ratingRemander (-1) settings.fillMode
      push_cast at hshift
      rwa [← sub_eq_add_neg, ← sub_eq_add_neg] at hshift
    have hstars : (0 : ℚ) ≤ stars := Nat.cast_nonneg stars
    rw [fillLevels_succ hsize, List.sum_cons, ih, CosmosRating.starFillLevel_eq, hnext]
    push_cast
    -- the first star takes at most one of the rating, and leaves the rest to the others
    rcases le_total 1 (CosmosRating.rounded ratingRemander settings.fillMode) with hmore | hless
    · rw [min_eq_left hmore, max_eq_right zero_le_one, ← max_add_add_left, ← min_add_add_left,
        add_sub_cancel, add_comm (1 : ℚ) stars, add_zero]
      exact (max_eq_right (le_min (by linarith) hmore)).trans
        (max_eq_right (le_min (by linarith) (by linarith))).symm
    · rw [min_eq_right hless, max_eq_left (min_le_of_right_le (by linarith)), add_zero,
        min_eq_right (hless.trans (by linarith))]

theorem fillLevels_nonneg (hsize : settings.starSize ≠ 0) (ratingRemander : ℚ) (stars : ℕ) :
    ∀ level ∈ fillLevels settings isRightToLeft ratingRemander stars, 0 ≤ level := by
  induction stars generalizing ratingRemander with
  | zero => exact fun level hlevel ↦ (List.not_mem_nil hlevel).elim
  | succ stars ih =>
    rw [fillLevels_succ hsize]
    refine List.forall_mem_cons.mpr ⟨?_, ih _⟩
    rw [CosmosRating.starFillLevel_eq]
    exact le_max_left _ _

/-- No star shows more than an earlier one. -/
theorem fillLevels_sorted (hsize : settings.starSize ≠ 0) (ratingRemander : ℚ) (stars : ℕ) :
    (fillLevels settings isRightToLeft ratingRemander stars).Pairwise (· ≥ ·) := by
  have hbelow (bound remainder : ℚ) (hbound : remainder ≤ bound) (stars : ℕ) :
      ∀ level ∈ fillLevels settings isRightToLeft remainder stars,
        level ≤ CosmosRating.starFillLevel bound settings.fillMode := by
    induction stars generalizing remainder with
    | zero => exact fun level hlevel ↦ (List.not_mem_nil hlevel).elim
    | succ stars ih =>
      rw [fillLevels_succ hsize]
      refine List.forall_mem_cons.mpr ⟨?_, ih _ (by linarith)⟩
      rw [CosmosRating.starFillLevel_eq, CosmosRating.starFillLevel_eq]
      exact max_le_max_left _ (min_le_min_left _ (CosmosRating.rounded_mono hbound _))
  induction stars generalizing ratingRemander with
  | zero => exact List.Pairwise.nil
  | succ stars ih =>
    rw [fillLevels_succ hsize]
    exact List.pairwise_cons.mpr ⟨hbelow _ _ (by linarith) stars, ih _⟩

end CosmosLayers

/-! ### What a view shows -/

namespace CosmosView

variable {view : CosmosView} {text : Option StarText} {layers : List CALayer}

/-- The layers in the direction of the language: the stars, the first one first, and the text. -/
def readingOrder (view : CosmosView) (layers : List CALayer) : List CALayer :=
  if view.isRightToLeft then layers.reverse else layers

/-- The stars of a view before they are placed. -/
def stars (view : CosmosView) : List CALayer :=
  CosmosLayers.createStars view.settings view.isRightToLeft
    (CosmosRating.numberOfFilledStars view.rating view.settings.totalStars)
    view.settings.totalStars.toNat

/-- The layers of a view, whose number of stars is not negative. -/
theorem sublayers_eq_some (h : view.sublayers text = some layers) :
    0 ≤ view.settings.totalStars ∧ layers =
      let placed := CosmosLayers.positionStarLayers view.settings.starMargin 0
        (if view.isRightToLeft then view.stars.reverse else view.stars)
      text.elim placed fun text ↦
        view.addTextLayer (view.createTextLayer text placed) text.textMargin placed := by
  obtain ⟨placed, hplaced, rfl⟩ := Option.map_eq_some_iff.mp h
  rw [CosmosLayers.createStarLayers] at hplaced
  by_cases hnegative : view.settings.totalStars < 0
  · rw [if_pos hnegative] at hplaced
    cases hplaced
  · rw [if_neg hnegative] at hplaced
    obtain rfl := Option.some.inj hplaced
    exact ⟨not_lt.mp hnegative, rfl⟩

theorem exists_sublayers (view : CosmosView) (text : Option StarText)
    (hstars : 0 ≤ view.settings.totalStars) :
    ∃ layers, view.sublayers text = some layers := by
  rw [sublayers, CosmosLayers.createStarLayers, if_neg (not_lt.mpr hstars)]
  exact ⟨_, rfl⟩

/-- The contents of the layers, in the direction of the language. -/
theorem map_content_readingOrder (h : view.sublayers text = some layers) :
    (view.readingOrder layers).map CALayer.content =
      view.stars.map CALayer.content ++
        (text.map fun text ↦ LayerContent.text text.string).toList := by
  obtain ⟨_, rfl⟩ := sublayers_eq_some h
  have hcontent (shift : ℚ) : (CALayer.content ∘ fun starLayer : CALayer ↦
      { starLayer with x := starLayer.x + shift }) = CALayer.content := rfl
  cases hdirection : view.isRightToLeft with
  | false =>
    cases text with
    | none => simp [readingOrder, hdirection, CosmosLayers.map_content_positionStarLayers]
    | some text =>
      simp [readingOrder, hdirection, addTextLayer, createTextLayer, CosmosText.position,
        CosmosLayerHelper.createTextLayer, CosmosLayers.map_content_positionStarLayers]
  | true =>
    cases text with
    | none =>
      simp [readingOrder, hdirection, CosmosLayers.map_content_positionStarLayers]
    | some text =>
      simp [readingOrder, hdirection, addTextLayer, createTextLayer, CosmosText.position,
        CosmosLayerHelper.createTextLayer, CosmosLayers.map_content_positionStarLayers, hcontent]

/-- The fill levels of the layers, in the direction of the language: a text shows nothing of the
rating. -/
theorem map_fillLevel_readingOrder (h : view.sublayers text = some layers) :
    (view.readingOrder layers).map (fun layer ↦ layer.content.fillLevel view.settings.starSize) =
      CosmosLayers.fillLevels view.settings view.isRightToLeft
        (CosmosRating.numberOfFilledStars view.rating view.settings.totalStars)
        view.settings.totalStars.toNat ++ (text.map fun _ ↦ (0 : ℚ)).toList := by
  have hcontents := congrArg (List.map (LayerContent.fillLevel view.settings.starSize))
    (map_content_readingOrder h)
  rw [List.map_map, List.map_append, List.map_map] at hcontents
  refine hcontents.trans (congrArg _ ?_)
  cases text <;> rfl

/-- What the stars of a view show together. -/
theorem sum_fillLevel (hsize : view.settings.starSize ≠ 0)
    (h : view.sublayers text = some layers) :
    (layers.map fun layer ↦ layer.content.fillLevel view.settings.starSize).sum =
      CosmosRating.displayedRatingFromPreciseRating view.rating view.settings.fillMode
        view.settings.totalStars := by
  set fillLevel := LayerContent.fillLevel view.settings.starSize with hfillLevel
  obtain ⟨hstars, _⟩ := sublayers_eq_some h
  have hsum : (layers.map fun layer ↦ fillLevel layer.content).sum =
      ((view.readingOrder layers).map fun layer ↦ fillLevel layer.content).sum := by
    rw [readingOrder]
    split_ifs
    · rw [List.map_reverse, List.sum_reverse]
    · rfl
  have htext : (text.map fun _ ↦ (0 : ℚ)).toList.sum = 0 := by cases text <;> simp
  have hcount : (view.settings.totalStars.toNat : ℚ) = view.settings.totalStars := by
    exact_mod_cast Int.toNat_of_nonneg hstars
  have hcast : (0 : ℚ) ≤ view.settings.totalStars := by exact_mod_cast hstars
  rw [hsum, map_fillLevel_readingOrder h, List.sum_append, CosmosLayers.sum_fillLevels hsize, htext,
    add_zero, hcount, CosmosRating.rounded_numberOfFilledStars _ _ hstars,
    CosmosRating.displayedRatingFromPreciseRating_eq,
    min_eq_right (max_le hcast (min_le_left _ _)), ← max_assoc, max_self]

/-- Assumes: stars of some size. The stars of a view, with or without a text and in either direction
of the language, show together the displayed rating of the view, from which the announced value is
rounded to one decimal, each of them no more than the one before it. -/
theorem shown_eq_displayedRating (hsize : view.settings.starSize ≠ 0)
    (h : view.sublayers text = some layers) :
    (layers.map fun layer ↦ layer.content.fillLevel view.settings.starSize).sum =
        CosmosRating.displayedRatingFromPreciseRating view.rating view.settings.fillMode
          view.settings.totalStars ∧
      ((view.readingOrder layers).map fun layer ↦
        layer.content.fillLevel view.settings.starSize).Pairwise (· ≥ ·) := by
  refine ⟨sum_fillLevel hsize h, ?_⟩
  rw [map_fillLevel_readingOrder h]
  refine List.pairwise_append.mpr ⟨CosmosLayers.fillLevels_sorted hsize _ _, ?_, ?_⟩
  · cases text <;> simp
  · intro level hlevel last hlast
    have hzero : last = 0 := by
      cases text with
      | none => cases hlast
      | some _ => exact List.mem_singleton.mp hlast
    rw [hzero]
    exact CosmosLayers.fillLevels_nonneg hsize _ _ level hlevel

/-- A view with half stars in a language that is written from right to left. -/
def sampleView : CosmosView := ⟨10 / 3, { fillMode := .half }, true, 0⟩

def sampleText : StarText := ⟨"7 reviews", 60, 15, 5⟩

/-- Three stars and a half for ten thirds of a star. -/
theorem shown_eq_displayedRating_sample : ∃ layers,
    sampleView.sublayers (some sampleText) = some layers ∧
    (layers.map fun layer ↦ layer.content.fillLevel sampleView.settings.starSize).sum = 7 / 2 ∧
    ((sampleView.readingOrder layers).map fun layer ↦
      layer.content.fillLevel sampleView.settings.starSize).Pairwise (· ≥ ·) := by
  obtain ⟨layers, hlayers⟩ := exists_sublayers sampleView (some sampleText) (by decide)
  obtain ⟨hsum, hsorted⟩ := shown_eq_displayedRating (by decide +kernel) hlayers
  exact ⟨layers, hlayers, hsum.trans (by decide +kernel), hsorted⟩

end CosmosView

end BeenHere
