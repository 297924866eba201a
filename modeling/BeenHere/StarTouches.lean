import BeenHere.Stars

/-!
# Touches of the stars

Where the stars of a `CosmosView` are, and what a touch of them gives. `touchRating` works from the
distance to the first star only, with the size and the margin of the settings, and `update` places
the stars and sizes the view by itself, so that the two have to agree on every star.

They do: a touch of a star that is drawn, not too close to its leading edge, gives the rating of
that star, and the control that is drawn anew shows exactly the stars up to it
(`filled_of_touched`). A drag away from the first star never lowers the rating (`touched_mono`). And
on a detail page the stars show what has been submitted, unless the first interaction is a decrement
of a rating that shows its first star without being one (`shown_iff`).
-/

set_option autoImplicit false
set_option relaxedAutoImplicit false

namespace BeenHere

/-! ### Touches -/

namespace CosmosTouch

variable {settings : CosmosSettings}

/-- A position up to the trailing edge of the last star: the whole stars before it, and the part of
the star that it is in. -/
theorem preciseRating_eq {starSize starMargin position : ℚ} {numberOfStars : ℤ}
    (hsize : 0 < starSize) (hposition : 0 ≤ position)
    (hstars : ⌊position / (starSize + starMargin)⌋ ≤ numberOfStars)
    (hstep : 0 < starSize + starMargin) :
    preciseRating position numberOfStars starSize starMargin =
      ⌊position / (starSize + starMargin)⌋ +
        min 1 ((position - ⌊position / (starSize + starMargin)⌋ * (starSize + starMargin)) /
          starSize) := by
  rw [preciseRating, if_neg (not_lt.mpr hposition)]
  simp only [truncate_of_nonneg (div_nonneg hposition hstep.le), if_neg (not_lt.mpr hstars)]
  split_ifs with hmargin
  · rw [min_eq_left ((one_le_div hsize).mpr hmargin.le)]
  · rw [min_eq_right ((div_le_one hsize).mpr (not_lt.mp hmargin))]

/-- A touch of a star. -/
theorem preciseRating_of_star {starSize starMargin offset : ℚ} {numberOfStars : ℤ} {star : ℕ}
    (hsize : 0 < starSize) (hmargin : 0 ≤ starMargin) (hstar : (star : ℤ) < numberOfStars)
    (hlow : 0 ≤ offset) (hhigh : offset ≤ starSize) :
    preciseRating (star * (starSize + starMargin) + offset) numberOfStars starSize starMargin =
      star + offset / starSize := by
  have hstep : 0 < starSize + starMargin := by linarith
  have hposition : 0 ≤ star * (starSize + starMargin) + offset :=
    add_nonneg (mul_nonneg (Nat.cast_nonneg _) hstep.le) hlow
  have hquotient : ⌊(star * (starSize + starMargin) + offset) / (starSize + starMargin)⌋ =
      star + ⌊offset / (starSize + starMargin)⌋ := by
    rw [add_div, mul_div_cancel_right₀ _ hstep.ne', Int.floor_natCast_add]
  rcases lt_or_eq_of_le (hhigh.trans (le_add_of_nonneg_right hmargin)) with hinside | hedge
  · have hfloor : ⌊offset / (starSize + starMargin)⌋ = 0 :=
      Int.floor_eq_zero_iff.mpr ⟨div_nonneg hlow hstep.le, (div_lt_one hstep).mpr hinside⟩
    rw [hfloor, add_zero] at hquotient
    rw [preciseRating_eq hsize hposition (hquotient.trans_le hstar.le) hstep, hquotient,
      Int.cast_natCast, add_sub_cancel_left, min_eq_right ((div_le_one hsize).mpr hhigh)]
  · -- the trailing edge of a star without a margin is the leading edge of the next one
    have hfull : offset = starSize := by linarith
    have hfloor : ⌊offset / (starSize + starMargin)⌋ = 1 := by
      rw [hedge, div_self hstep.ne', Int.floor_one]
    rw [hfloor] at hquotient
    have hremainder : (star : ℚ) * (starSize + starMargin) + offset -
        ((star + 1 : ℤ) : ℚ) * (starSize + starMargin) = 0 := by
      push_cast
      linarith
    rw [preciseRating_eq hsize hposition (hquotient.trans_le (Int.add_one_le_of_lt hstar)) hstep,
      hquotient, hremainder, zero_div, min_eq_right zero_le_one, hfull, div_self hsize.ne',
      add_zero]
    push_cast
    rfl

/-- A touch of a full star gives the star, unless it is within a twentieth of its leading edge. -/
theorem touchRating_of_star {offset : ℚ} {star : ℕ} (hmode : settings.fillMode = .full)
    (hsize : 0 < settings.starSize) (hmargin : 0 ≤ settings.starMargin)
    (hstar : (star : ℤ) < settings.totalStars) (hlow : settings.starSize / 20 ≤ offset)
    (hhigh : offset ≤ settings.starSize) :
    touchRating (star * (settings.starSize + settings.starMargin) + offset) settings =
      max settings.minTouchRating (star + 1) := by
  have hoffset : 0 ≤ offset := (div_nonneg hsize.le (by norm_num)).trans hlow
  have hpart : 1 / 20 ≤ offset / settings.starSize := by
    rw [le_div_iff₀ hsize]
    linarith
  have hwhole : offset / settings.starSize ≤ 1 := (div_le_one hsize).mpr hhigh
  have hround : round (star + offset / settings.starSize + 45 / 100 : ℚ) = star + 1 := by
    rw [round_eq, Int.floor_eq_iff]
    push_cast
    exact ⟨by linarith, by linarith⟩
  have hlast : (star + 1 : ℚ) ≤ settings.totalStars := by exact_mod_cast Int.add_one_le_of_lt hstar
  have hpositive : (0 : ℚ) ≤ star + 1 := by positivity
  simp only [touchRating, hmode, preciseRating_of_star hsize hmargin hstar hoffset hhigh,
    CosmosRating.displayedRatingFromPreciseRating_eq, CosmosRating.rounded, hround]
  push_cast
  rw [min_eq_right hlast, max_eq_right hpositive]

/-- Past the leading edge of a star. -/
theorem floor_le_preciseRating {starSize starMargin position : ℚ} {numberOfStars : ℤ}
    (hsize : 0 < starSize) (hmargin : 0 ≤ starMargin) (hposition : 0 ≤ position)
    (hstars : ⌊position / (starSize + starMargin)⌋ ≤ numberOfStars) :
    (⌊position / (starSize + starMargin)⌋ : ℚ) ≤
      preciseRating position numberOfStars starSize starMargin := by
  have hstep : 0 < starSize + starMargin := by linarith
  have hremainder : 0 ≤ position - ⌊position / (starSize + starMargin)⌋ * (starSize + starMargin) :=
    sub_nonneg.mpr ((le_div_iff₀ hstep).mp (Int.floor_le _))
  rw [preciseRating_eq hsize hposition hstars hstep]
  exact le_add_of_nonneg_right (le_min zero_le_one (div_nonneg hremainder hsize.le))

/-- A farther position has no lower rating, or is past the stars. -/
theorem preciseRating_le {starSize starMargin position farther : ℚ} {numberOfStars : ℤ}
    (hsize : 0 < starSize) (hmargin : 0 ≤ starMargin) (hfarther : position ≤ farther) :
    preciseRating position numberOfStars starSize starMargin ≤
        preciseRating farther numberOfStars starSize starMargin ∨
      (numberOfStars : ℚ) ≤ preciseRating farther numberOfStars starSize starMargin := by
  have hstep : 0 < starSize + starMargin := by linarith
  rcases lt_or_ge farther 0 with hleft | hright
  · left
    rw [preciseRating, preciseRating, if_pos (hfarther.trans_lt hleft), if_pos hleft]
  rcases lt_or_ge numberOfStars ⌊farther / (starSize + starMargin)⌋ with hpast | hwithin
  · right
    rw [preciseRating, if_neg (not_lt.mpr hright)]
    simp only [truncate_of_nonneg (div_nonneg hright hstep.le), if_pos hpast, le_refl]
  left
  have hstars := floor_le_preciseRating hsize hmargin hright hwithin
  rcases lt_or_ge position 0 with hbefore | hposition
  · have hzero : (0 : ℚ) ≤ ⌊farther / (starSize + starMargin)⌋ := by
      exact_mod_cast Int.floor_nonneg.mpr (div_nonneg hright hstep.le)
    rw [preciseRating, if_pos hbefore]
    exact hzero.trans hstars
  · have hfloor : ⌊position / (starSize + starMargin)⌋ ≤ ⌊farther / (starSize + starMargin)⌋ :=
      Int.floor_le_floor ((div_le_div_iff_of_pos_right hstep).mpr hfarther)
    rcases lt_or_eq_of_le hfloor with hless | hsame
    · have hnext : (⌊position / (starSize + starMargin)⌋ + 1 : ℚ) ≤
          ⌊farther / (starSize + starMargin)⌋ := by exact_mod_cast Int.add_one_le_of_lt hless
      rw [preciseRating_eq hsize hposition (hfloor.trans hwithin) hstep]
      exact (add_le_add_right (min_le_left _ _) _).trans (hnext.trans hstars)
    · rw [preciseRating_eq hsize hposition (hfloor.trans hwithin) hstep,
        preciseRating_eq hsize hright hwithin hstep, hsame]
      refine add_le_add_right (min_le_min_left _ ?_) _
      exact (div_le_div_iff_of_pos_right hsize).mpr (sub_le_sub_right hfarther _)

/-- What is added to a touch before it is rounded. -/
def correction : StarFillMode → ℚ
  | .half => 20 / 100
  | .full => 45 / 100
  | .precise => 0

theorem touchRating_eq (position : ℚ) (settings : CosmosSettings) :
    touchRating position settings =
      max settings.minTouchRating (max 0 (min (settings.totalStars : ℚ) (CosmosRating.rounded
        (preciseRating position settings.totalStars settings.starSize settings.starMargin +
          correction settings.fillMode) settings.fillMode))) := by
  rw [touchRating, CosmosRating.displayedRatingFromPreciseRating_eq]
  cases hmode : settings.fillMode with
  | full | half => rfl
  | precise =>
    rw [correction, add_zero]

/-- A farther position gives no lower rating: past the stars it is the highest one. -/
theorem touchRating_mono (hsize : 0 < settings.starSize) (hmargin : 0 ≤ settings.starMargin)
    {position farther : ℚ} (hfarther : position ≤ farther) :
    touchRating position settings ≤ touchRating farther settings := by
  rw [touchRating_eq, touchRating_eq]
  refine max_le_max_left _ (max_le_max_left _ ?_)
  rcases preciseRating_le hsize hmargin hfarther with hmore | hpast
  · exact min_le_min_left _ (CosmosRating.rounded_mono (add_le_add_left hmore _) _)
  · have hcorrection : 0 ≤ correction settings.fillMode := by
      cases settings.fillMode <;> norm_num [correction]
    have hrounded := CosmosRating.rounded_mono (hpast.trans (le_add_of_nonneg_right hcorrection))
      settings.fillMode
    rw [CosmosRating.rounded_intCast] at hrounded
    rw [min_eq_left hrounded]
    exact min_le_left _ _

end CosmosTouch

/-! ### Where the stars are -/

namespace CosmosView

variable {view : CosmosView} {text : Option StarText} {layers : List CALayer}

/-- How far the text moves the stars of a language that is written from right to left. -/
def textWidth (text : Option StarText) : ℚ := text.elim 0 fun text ↦ text.width + text.textMargin

/-- The position of a star, counted from the first one in the direction of the language. -/
def starX (view : CosmosView) (text : Option StarText) (star : ℕ) : ℚ :=
  if view.isRightToLeft then
    textWidth text + (view.settings.totalStars.toNat - 1 - star : ℕ) *
      (view.settings.starSize + view.settings.starMargin)
  else star * (view.settings.starSize + view.settings.starMargin)

theorem length_stars (view : CosmosView) : view.stars.length = view.settings.totalStars.toNat :=
  CosmosLayers.length_createStars _ _

theorem width_of_mem_stars {layer : CALayer} (h : layer ∈ view.stars) :
    layer.width = view.settings.starSize := by
  obtain ⟨index, hindex⟩ := List.mem_iff_getElem?.mp h
  obtain ⟨hlt, _⟩ := List.getElem?_eq_some_iff.mp hindex
  rw [length_stars] at hlt
  rw [stars, CosmosLayers.getElem?_createStars _ hlt, Option.some.injEq] at hindex
  rw [← hindex]
  rfl

/-- A star of a view that is shown. -/
theorem getElem?_readingOrder (h : view.sublayers text = some layers) {star : ℕ}
    (hstar : star < view.settings.totalStars.toNat) :
    (view.readingOrder layers)[star]? =
      view.stars[star]?.map fun layer ↦ { layer with x := view.starX text star } := by
  obtain ⟨_, rfl⟩ := sublayers_eq_some h
  have hlength := view.length_stars
  cases hdirection : view.isRightToLeft with
  | false =>
    have hplaced : (CosmosLayers.positionStarLayers view.settings.starMargin 0 view.stars)[star]? =
        view.stars[star]?.map fun layer ↦ { layer with x := view.starX text star } := by
      rw [CosmosLayers.getElem?_positionStarLayers 0 fun layer ↦ width_of_mem_stars]
      simp [starX, hdirection]
    have hinside : star <
        (CosmosLayers.positionStarLayers view.settings.starMargin 0 view.stars).length := by
      rwa [CosmosLayers.length_positionStarLayers, hlength]
    rw [← hplaced]
    cases text with
    | none => simp [readingOrder, hdirection]
    | some text =>
      simp only [readingOrder, hdirection, addTextLayer, Option.elim_some]
      exact List.getElem?_append_left hinside
  | true =>
    set placed := CosmosLayers.positionStarLayers view.settings.starMargin 0 view.stars.reverse
      with hplaced
    have hcount : placed.length = view.settings.totalStars.toNat := by
      rw [hplaced, CosmosLayers.length_positionStarLayers, List.length_reverse, hlength]
    -- the layer of a star, counted from the other end
    have hlayer : placed.reverse[star]? = view.stars[star]?.map fun layer ↦
        { layer with x := (view.settings.totalStars.toNat - 1 - star : ℕ) *
          (view.settings.starSize + view.settings.starMargin) } := by
      have hwidth : ∀ layer ∈ view.stars.reverse, layer.width = view.settings.starSize :=
        fun layer hmem ↦ width_of_mem_stars (List.mem_reverse.mp hmem)
      rw [List.getElem?_reverse (hcount ▸ hstar), hcount, hplaced,
        CosmosLayers.getElem?_positionStarLayers 0 hwidth,
        List.getElem?_reverse (by rw [hlength]; omega), hlength, zero_add]
      congr 2
      omega
    cases text with
    | none =>
      simp [readingOrder, hdirection, ← hplaced, starX, textWidth, hlayer]
    | some text =>
      simp only [readingOrder, hdirection, addTextLayer, Option.elim_some, if_true,
        List.reverse_cons, ← hplaced, ← List.map_reverse]
      rw [List.getElem?_append_left (by simpa [hcount] using hstar), List.getElem?_map, hlayer,
        Option.map_map]
      refine congrArg (Option.map · view.stars[star]?) (funext fun layer ↦ ?_)
      simp only [Function.comp_apply, starX, hdirection, if_true, textWidth, Option.elim_some,
        createTextLayer, CosmosText.position, CosmosLayerHelper.createTextLayer]
      rw [add_comm]

/-- After the stars of a language that is written from right to left there is only the text, at the
left edge. -/
theorem maxX_of_text (hdirection : view.isRightToLeft = true)
    (h : view.sublayers text = some layers) {index : ℕ}
    (hindex : view.settings.totalStars.toNat ≤ index) {layer : CALayer}
    (hlayer : (view.readingOrder layers)[index]? = some layer) :
    ∃ label, text = some label ∧ layer.maxX = label.width := by
  obtain ⟨_, rfl⟩ := sublayers_eq_some h
  set placed := CosmosLayers.positionStarLayers view.settings.starMargin 0 view.stars.reverse
    with hplaced
  have hcount : placed.length = view.settings.totalStars.toNat := by
    rw [hplaced, CosmosLayers.length_positionStarLayers, List.length_reverse, length_stars]
  cases text with
  | none =>
    simp only [readingOrder, hdirection, if_true, Option.elim_none, ← hplaced] at hlayer
    have hinside := (List.getElem?_eq_some_iff.mp hlayer).1
    rw [List.length_reverse, hcount] at hinside
    exact absurd hinside (not_lt.mpr hindex)
  | some label =>
    simp only [readingOrder, hdirection, if_true, Option.elim_some, addTextLayer, ← hplaced,
      List.reverse_cons] at hlayer
    rw [List.getElem?_append_right (by simpa [hcount] using hindex)] at hlayer
    refine ⟨label, rfl, ?_⟩
    rw [List.mem_singleton.mp (List.mem_of_getElem? hlayer), createTextLayer, if_pos hdirection]
    simp [CALayer.maxX, CosmosText.position, CosmosLayerHelper.createTextLayer]

/-- The width that fits layers. Assumes: one of them reaches to it, and none further. -/
theorem calculateSizeToFitLayers_fst {width : ℚ} (hwidth : 0 ≤ width)
    (hlayers : ∀ layer ∈ layers, layer.maxX ≤ width)
    (hlast : ∃ layer ∈ layers, layer.maxX = width) :
    (CosmosSize.calculateSizeToFitLayers layers).1 = width := by
  -- what has been found so far is at most the width, and is the width once the layer is passed
  have hfold (rest : List CALayer) (size : ℚ × ℚ) (hsize : size.1 ≤ width)
      (hrest : ∀ layer ∈ rest, layer.maxX ≤ width)
      (hfound : size.1 = width ∨ ∃ layer ∈ rest, layer.maxX = width) :
      (rest.foldl (fun size layer ↦
        (if layer.maxX > size.1 then layer.maxX else size.1,
          if layer.maxY > size.2 then layer.maxY else size.2)) size).1 = width := by
    induction rest generalizing size with
    | nil => simpa using hfound
    | cons layer rest ih =>
      obtain ⟨hlayer, hrest⟩ := List.forall_mem_cons.mp hrest
      refine ih _ ?_ hrest ?_
      · dsimp only
        split_ifs
        · exact hlayer
        · exact hsize
      · dsimp only
        rcases hfound with hfound | ⟨other, hother, hreach⟩
        · rw [if_neg (not_lt.mpr (hfound ▸ hlayer))]
          exact Or.inl hfound
        · rcases List.mem_cons.mp hother with rfl | hother
          · left
            split_ifs with hless
            · exact hreach
            · exact le_antisymm hsize (hreach ▸ not_lt.mp hless)
          · exact Or.inr ⟨other, hother, hreach⟩
  exact hfold layers (0, 0) hwidth hlayers (Or.inr hlast)

/-- The width of a view in a language that is written from right to left: the first star ends
there. -/
theorem width_of_isRightToLeft (hdirection : view.isRightToLeft = true)
    (h : view.sublayers text = some layers) (hsize : 0 ≤ view.settings.starSize)
    (hmargin : 0 ≤ view.settings.starMargin)
    (htext : ∀ label ∈ text, 0 ≤ label.width ∧ 0 ≤ label.textMargin)
    (hstars : 0 < view.settings.totalStars.toNat) :
    (CosmosSize.calculateSizeToFitLayers layers).1 =
      view.starX text 0 + view.settings.starSize := by
  have hstep : 0 ≤ view.settings.starSize + view.settings.starMargin := add_nonneg hsize hmargin
  have hshift : 0 ≤ textWidth text := by
    cases text with
    | none => exact le_rfl
    | some label => exact add_nonneg (htext label rfl).1 (htext label rfl).2
  have hstarX (star : ℕ) : textWidth text ≤ view.starX text star ∧
      view.starX text star ≤ view.starX text 0 := by
    simp only [starX, hdirection, if_true]
    refine ⟨le_add_of_nonneg_right (mul_nonneg (Nat.cast_nonneg _) hstep),
      add_le_add_right (mul_le_mul_of_nonneg_right ?_ hstep) _⟩
    exact Nat.cast_le.mpr (by omega)
  have hreading : view.readingOrder layers = layers.reverse := by
    rw [readingOrder, if_pos hdirection]
  have hstar {star : ℕ} (hlt : star < view.settings.totalStars.toNat) :
      ∃ layer, layers.reverse[star]? = some layer ∧
        layer.maxX = view.starX text star + view.settings.starSize := by
    obtain ⟨layer, hlayer⟩ : ∃ layer, view.stars[star]? = some layer :=
      ⟨_, List.getElem?_eq_getElem (by rwa [length_stars])⟩
    refine ⟨_, by rw [← hreading, getElem?_readingOrder h hlt, hlayer, Option.map_some], ?_⟩
    rw [CALayer.maxX, width_of_mem_stars (List.mem_of_getElem? hlayer)]
  refine calculateSizeToFitLayers_fst ?_ (fun layer hlayer ↦ ?_) ?_
  · exact add_nonneg (hshift.trans (hstarX 0).1) hsize
  · obtain ⟨index, hindex⟩ := List.mem_iff_getElem?.mp (List.mem_reverse.mpr hlayer)
    by_cases hlt : index < view.settings.totalStars.toNat
    · obtain ⟨other, hother, hreach⟩ := hstar hlt
      rw [← Option.some.inj (hother.symm.trans hindex), hreach]
      exact add_le_add_left (hstarX index).2 _
    · obtain ⟨label, hlabel, hreach⟩ :=
        maxX_of_text hdirection h (not_lt.mp hlt) (by rwa [hreading])
      have htextWidth : label.width ≤ textWidth text := by
        rw [hlabel]
        exact le_add_of_nonneg_right (htext label hlabel).2
      rw [hreach]
      exact (htextWidth.trans (hstarX 0).1).trans (le_add_of_nonneg_right hsize)
  · obtain ⟨layer, hlayer, hreach⟩ := hstar hstars
    exact ⟨layer, List.mem_reverse.mp (List.mem_of_getElem? hlayer), hreach⟩

/-! ### Touches of the stars that are drawn -/

/-- How far a location is from the leading edge of a layer. -/
def offset (view : CosmosView) (layer : CALayer) (x : ℚ) : ℚ :=
  if view.isRightToLeft then layer.maxX - x else x - layer.x

/-- The location of a touch in a view that has been drawn is counted from the first star. -/
theorem touchLocation_of_star {drawn : CosmosView}
    (hdrawn : view.update text = some (layers, drawn))
    (hsize : 0 ≤ view.settings.starSize) (hmargin : 0 ≤ view.settings.starMargin)
    (htext : ∀ label ∈ text, 0 ≤ label.width ∧ 0 ≤ label.textMargin) {star : ℕ}
    (hstar : star < view.settings.totalStars.toNat) {layer : CALayer}
    (hlayer : (view.readingOrder layers)[star]? = some layer) (x : ℚ) :
    drawn.touchLocationFromBeginningOfRating x =
      star * (view.settings.starSize + view.settings.starMargin) + view.offset layer x := by
  obtain ⟨placed, hplaced, hview⟩ := Option.map_eq_some_iff.mp hdrawn
  obtain ⟨rfl, rfl⟩ := Prod.mk.inj hview
  rw [getElem?_readingOrder hplaced hstar] at hlayer
  obtain ⟨bare, hbare, rfl⟩ := Option.map_eq_some_iff.mp hlayer
  have hwidth := width_of_mem_stars (List.mem_of_getElem? hbare)
  cases hdirection : view.isRightToLeft with
  | false =>
    simp only [touchLocationFromBeginningOfRating, offset, hdirection, starX, Bool.false_eq_true,
      if_false]
    ring
  | true =>
    have hfits := width_of_isRightToLeft hdirection hplaced hsize hmargin htext
      ((Nat.zero_le star).trans_lt hstar)
    have hlast : ((view.settings.totalStars.toNat - 1 - star : ℕ) : ℚ) =
        (view.settings.totalStars.toNat - 1 - 0 : ℕ) - star := by
      rw [Nat.sub_zero, Nat.cast_sub (by omega)]
    simp only [touchLocationFromBeginningOfRating, offset, hdirection, if_true, hfits, CALayer.maxX,
      hwidth, starX, hlast]
    ring

/-- A whole rating fills the first stars. -/
theorem content_of_rating (h : view.sublayers text = some layers) {filled : ℕ}
    (hrating : view.rating = filled) (hfilled : filled ≤ view.settings.totalStars.toNat) {star : ℕ}
    (hstar : star < view.settings.totalStars.toNat) {layer : CALayer}
    (hlayer : (view.readingOrder layers)[star]? = some layer) :
    layer.content = .star (decide (star < filled)) := by
  have hcount : CosmosRating.numberOfFilledStars view.rating view.settings.totalStars = filled := by
    have hlast : (filled : ℚ) ≤ view.settings.totalStars := by
      exact_mod_cast (show (filled : ℤ) ≤ view.settings.totalStars by omega)
    rw [CosmosRating.numberOfFilledStars, hrating, if_neg (not_lt.mpr hlast),
      if_neg (not_lt.mpr (Nat.cast_nonneg filled))]
  rw [getElem?_readingOrder h hstar, stars, hcount, CosmosLayers.getElem?_createStars _ hstar,
    Option.map_some, Option.some.injEq] at hlayer
  have hremainder : (filled : ℚ) - star = ((filled - star : ℤ) : ℚ) := by push_cast; rfl
  have hlevel : CosmosRating.starFillLevel (filled - star) view.settings.fillMode =
      if star < filled then 1 else 0 := by
    rw [CosmosRating.starFillLevel_eq, hremainder, CosmosRating.rounded_intCast]
    split_ifs with hless
    · have hone : (1 : ℚ) ≤ (filled - star : ℤ) := by
        exact_mod_cast (show (1 : ℤ) ≤ filled - star by omega)
      rw [min_eq_left hone, max_eq_right zero_le_one]
    · have hnone : ((filled - star : ℤ) : ℚ) ≤ 0 := by
        exact_mod_cast (show (filled - star : ℤ) ≤ 0 by omega)
      rw [min_eq_right (hnone.trans zero_le_one), max_eq_left hnone]
  rw [← hlayer, hlevel]
  by_cases hless : star < filled <;> simp [CosmosLayers.createCompositeStarLayer, hless]

/-- Assumes: full stars of some size that react to touches, no negative margins, and a lowest touch
rating of at most one star. A touch of a star of a view that has been drawn, at least a twentieth of
the star from its leading edge, gives the rating of the star. The view that is drawn anew shows
exactly the stars up to it as filled. -/
theorem filled_of_touched (hmode : view.settings.fillMode = .full)
    (hupdate : view.settings.updateOnTouch = true) (hmin : view.settings.minTouchRating ≤ 1)
    (hsize : 0 < view.settings.starSize) (hmargin : 0 ≤ view.settings.starMargin)
    (htext : ∀ label ∈ text, 0 ≤ label.width ∧ 0 ≤ label.textMargin) {drawn : CosmosView}
    (hdrawn : view.update text = some (layers, drawn)) {star : ℕ}
    (hstar : star < view.settings.totalStars.toNat) {layer : CALayer}
    (hlayer : (view.readingOrder layers)[star]? = some layer) {x : ℚ}
    (hlow : view.settings.starSize / 20 ≤ view.offset layer x)
    (hhigh : view.offset layer x ≤ view.settings.starSize) :
    (drawn.touched x).rating = star + 1 ∧
      ∃ redrawn, (drawn.touched x).sublayers text = some redrawn ∧
        ∀ other < view.settings.totalStars.toNat, ∃ shown,
          (view.readingOrder redrawn)[other]? = some shown ∧
            shown.content = .star (decide (other ≤ star)) := by
  have hlocation := touchLocation_of_star hdrawn hsize.le hmargin htext hstar hlayer x
  obtain ⟨placed, hplaced, hview⟩ := Option.map_eq_some_iff.mp hdrawn
  obtain ⟨rfl, rfl⟩ := Prod.mk.inj hview
  set touched := touched _ x with htouched
  have hnonneg := (sublayers_eq_some hplaced).1
  have hrating : touched.rating = (star + 1 : ℕ) := by
    have hbelow : (star : ℤ) < view.settings.totalStars := by omega
    have hleast : view.settings.minTouchRating ≤ star + 1 :=
      hmin.trans (le_add_of_nonneg_left (Nat.cast_nonneg star))
    rw [htouched, CosmosView.touched, onDidTouch, hlocation]
    simp only [hupdate, if_true]
    rw [CosmosTouch.touchRating_of_star hmode hsize hmargin hbelow hlow hhigh,
      max_eq_right hleast, Nat.cast_succ]
  obtain ⟨redrawn, hredrawn⟩ : ∃ redrawn, touched.sublayers text = some redrawn :=
    exists_sublayers _ _ hnonneg
  refine ⟨by exact_mod_cast hrating, redrawn, hredrawn, fun other hother ↦ ?_⟩
  obtain ⟨bare, hbare⟩ : ∃ bare, touched.stars[other]? = some bare :=
    ⟨_, List.getElem?_eq_getElem (by rwa [length_stars])⟩
  have hshown := getElem?_readingOrder hredrawn hother
  rw [hbare, Option.map_some] at hshown
  refine ⟨_, hshown, ?_⟩
  rw [content_of_rating hredrawn hrating hstar hother hshown]
  simp only [Nat.lt_succ_iff]

/-- A touch of the fourth star on a detail page whose stars are right of a text. -/
theorem filled_of_touched_sample : ∃ layers drawn layer redrawn,
    (mainStoryboard true 0).update (some sampleText) = some (layers, drawn) ∧
    ((mainStoryboard true 0).readingOrder layers)[3]? = some layer ∧ layer.x = 90 ∧
    (drawn.touched 100).rating = 4 ∧
    (drawn.touched 100).sublayers (some sampleText) = some redrawn ∧
    ∀ other < 5, ∃ shown, ((mainStoryboard true 0).readingOrder redrawn)[other]? = some shown ∧
      shown.content = .star (decide (other ≤ 3)) := by
  have hruns : ((mainStoryboard true 0).update (some sampleText)).bind (fun shown ↦
      ((mainStoryboard true 0).readingOrder shown.1)[3]?.map fun layer ↦
        decide (layer.x = 90 ∧ 25 / 20 ≤ (mainStoryboard true 0).offset layer 100 ∧
          (mainStoryboard true 0).offset layer 100 ≤ 25)) = some true := by decide +kernel
  obtain ⟨⟨layers, drawn⟩, hdrawn, hshown⟩ := Option.bind_eq_some_iff.mp hruns
  obtain ⟨layer, hlayer, hoffset⟩ := Option.map_eq_some_iff.mp hshown
  obtain ⟨hx, hlow, hhigh⟩ := of_decide_eq_true hoffset
  have htext : ∀ label ∈ some sampleText, 0 ≤ label.width ∧ 0 ≤ label.textMargin := by
    rintro label ⟨⟩
    decide +kernel
  obtain ⟨hrating, redrawn, hredrawn, hfilled⟩ := filled_of_touched rfl rfl (by decide +kernel)
    (by decide +kernel) (by decide +kernel) htext hdrawn (by decide) hlayer hlow hhigh
  exact ⟨layers, drawn, layer, redrawn, hdrawn, hlayer, hx, hrating.trans (by norm_num), hredrawn,
    hfilled⟩

/-- Assumes: stars of some size without a negative margin. A touch farther from the first star does
not give a lower rating, in either direction of the language and whether or not the view takes
touches. -/
theorem touched_mono (hsize : 0 < view.settings.starSize) (hmargin : 0 ≤ view.settings.starMargin)
    {x farther : ℚ} (hfarther : view.touchLocationFromBeginningOfRating x ≤
      view.touchLocationFromBeginningOfRating farther) :
    (view.touched x).rating ≤ (view.touched farther).rating := by
  simp only [touched, onDidTouch]
  split_ifs
  · exact CosmosTouch.touchRating_mono hsize hmargin hfarther
  · exact le_rfl

/-- A touch to the left of another one, from right to left. -/
theorem touched_mono_sample :
    ((mainStoryboard true 125).touched 90).rating ≤ ((mainStoryboard true 125).touched 10).rating :=
  touched_mono (by decide +kernel) (by decide +kernel) (by decide +kernel)

end CosmosView

/-! ### The stars of the detail page -/

namespace RatingPage

variable {page next : RatingPage} {interaction : Interaction}

/-- Unless a touch is under way, the stars that the page shows are together the rating that has been
submitted last. -/
def Shown (page : RatingPage) : Prop :=
  page.touching = false → ∀ last, page.submitted.getLast? = some last → ∀ text layers,
    page.starRatingCosmosView.sublayers text = some layers →
      (layers.map fun layer ↦
        layer.content.fillLevel page.starRatingCosmosView.settings.starSize).sum = last

/-- The control of the storyboard with a rating that is a star, and that has been submitted unless a
touch is under way. -/
structure Whole (page : RatingPage) : Prop where
  settings : page.starRatingCosmosView.settings = CosmosView.storyboardSettings
  rating : ∃ stars : ℤ, page.starRatingCosmosView.rating = stars ∧ 1 ≤ stars ∧ stars ≤ 5
  submitted : page.touching = false → ∀ last, page.submitted.getLast? = some last →
    page.starRatingCosmosView.rating = last

/-- The control of the storyboard with a rating that shows no star. Nothing else has been
submitted. -/
structure Unrated (page : RatingPage) : Prop where
  settings : page.starRatingCosmosView.settings = CosmosView.storyboardSettings
  touching : page.touching = false
  low : 0 ≤ page.starRatingCosmosView.rating
  high : page.starRatingCosmosView.rating < 1 / 2
  submitted : ∀ last, page.submitted.getLast? = some last → last = 0

theorem shown_of_displayedRating
    (hsettings : page.starRatingCosmosView.settings = CosmosView.storyboardSettings)
    (hdisplayed : page.touching = false → ∀ last, page.submitted.getLast? = some last →
      CosmosRating.displayedRatingFromPreciseRating page.starRatingCosmosView.rating .full 5 =
        last) : page.Shown := by
  intro htouching last hlast text layers hlayers
  have hsize : page.starRatingCosmosView.settings.starSize ≠ 0 := by
    rw [hsettings]
    decide +kernel
  rw [CosmosView.sum_fillLevel hsize hlayers, ← hdisplayed htouching last hlast, hsettings]
  rfl

theorem Whole.shown (h : page.Whole) : page.Shown := by
  refine shown_of_displayedRating h.settings fun htouching last hlast ↦ ?_
  obtain ⟨stars, hstars, hlow, hhigh⟩ := h.rating
  have hleast : (0 : ℚ) ≤ stars := by exact_mod_cast zero_le_one.trans hlow
  have hmost : (stars : ℚ) ≤ (5 : ℤ) := by exact_mod_cast hhigh
  rw [CosmosRating.displayedRatingFromPreciseRating_eq, ← h.submitted htouching last hlast, hstars,
    CosmosRating.rounded_intCast, min_eq_right hmost, max_eq_right hleast]

theorem Unrated.shown (h : page.Unrated) : page.Shown := by
  refine shown_of_displayedRating h.settings fun _ last hlast ↦ ?_
  have hround : round page.starRatingCosmosView.rating = 0 := by
    rw [round_eq]
    exact Int.floor_eq_zero_iff.mpr ⟨by linarith [h.low], by linarith [h.high]⟩
  rw [CosmosRating.displayedRatingFromPreciseRating_eq, h.submitted last hlast,
    CosmosRating.rounded, hround]
  norm_num

/-- A touch of the control of the storyboard gives a star. -/
theorem touchRating_storyboardSettings (position : ℚ) : ∃ stars : ℤ,
    CosmosTouch.touchRating position CosmosView.storyboardSettings = stars ∧
      1 ≤ stars ∧ stars ≤ 5 := by
  obtain ⟨hlow, hhigh⟩ := touchRating_mem CosmosView.storyboardSettings position (by decide)
    (by decide)
  set stars : ℤ := max 1 (max 0 (min 5 (round (CosmosTouch.preciseRating position
    CosmosView.storyboardSettings.totalStars CosmosView.storyboardSettings.starSize
    CosmosView.storyboardSettings.starMargin + CosmosTouch.correction .full)))) with hstars
  have hrating : CosmosTouch.touchRating position CosmosView.storyboardSettings = stars := by
    rw [CosmosTouch.touchRating_eq, hstars]
    push_cast
    rfl
  rw [hrating] at hlow hhigh
  have hleast : (1 : ℚ) ≤ stars := hlow
  have hmost : (stars : ℚ) ≤ (5 : ℤ) := hhigh
  exact ⟨stars, hrating, by exact_mod_cast hleast, by exact_mod_cast hmost⟩

theorem getLast?_submitted_finish (page : RatingPage) (view : CosmosView) :
    (page.finish view).submitted.getLast? = some (truncate view.rating) :=
  List.getLast?_concat

/-- A star is submitted as it is. -/
theorem eq_of_finish {view : CosmosView}
    (hrating : ∃ stars : ℤ, view.rating = stars ∧ 1 ≤ stars ∧ stars ≤ 5) {last : ℤ}
    (hlast : (page.finish view).submitted.getLast? = some last) : view.rating = last := by
  obtain ⟨stars, hstars, hlow, _⟩ := hrating
  have hleast : (0 : ℚ) ≤ stars := by exact_mod_cast zero_le_one.trans hlow
  rw [getLast?_submitted_finish, hstars, truncate_of_nonneg hleast, Int.floor_intCast,
    Option.some.injEq] at hlast
  rw [hstars, hlast]

variable {view : CosmosView}

/-- An increment of a rating among the stars goes to a star. -/
theorem accessibilityIncrement_whole (hsettings : view.settings = CosmosView.storyboardSettings)
    (hlow : 0 ≤ view.rating) (hhigh : view.rating ≤ 5) : ∃ stars : ℤ,
    view.accessibilityIncrement.rating = stars ∧ 1 ≤ stars ∧ stars ≤ 5 := by
  rw [CosmosView.accessibilityIncrement, hsettings]
  rcases lt_or_eq_of_le hhigh with hless | hlast
  · have hfloor : 0 ≤ ⌊view.rating⌋ := Int.floor_nonneg.mpr hlow
    have hbelow : ⌊view.rating⌋ < 5 := Int.floor_lt.mpr (by exact_mod_cast hless)
    refine ⟨⌊view.rating⌋ + 1, ?_, by omega, by omega⟩
    rw [add_accessibilityIncrement rfl (by exact_mod_cast hless)]
    push_cast
    rfl
  · refine ⟨5, ?_, by decide, le_rfl⟩
    rw [CosmosAccessibility.accessibilityIncrement, if_pos (by exact_mod_cast hlast.ge), add_zero,
      hlast]
    rfl

/-- A decrement leaves a rating of at most one star where it is. -/
theorem accessibilityDecrement_of_le (hsettings : view.settings = CosmosView.storyboardSettings)
    (hrating : view.rating ≤ 1) : view.accessibilityDecrement.rating = view.rating := by
  have hmin : view.rating ≤ CosmosView.storyboardSettings.minTouchRating := hrating
  simp only [CosmosView.accessibilityDecrement, CosmosAccessibility.accessibilityDecrement,
    hsettings, if_pos hmin, sub_zero]

/-- A decrement of a rating of at least one star goes to a star. -/
theorem accessibilityDecrement_whole (hsettings : view.settings = CosmosView.storyboardSettings)
    (hlow : 1 ≤ view.rating) (hhigh : view.rating ≤ 5) : ∃ stars : ℤ,
    view.accessibilityDecrement.rating = stars ∧ 1 ≤ stars ∧ stars ≤ 5 := by
  rcases lt_or_eq_of_le hlow with hmore | hone
  · have hceil : 1 < ⌈view.rating⌉ := Int.lt_ceil.mpr (by exact_mod_cast hmore)
    have hmost : ⌈view.rating⌉ ≤ 5 := Int.ceil_le.mpr (by exact_mod_cast hhigh)
    refine ⟨⌈view.rating⌉ - 1, ?_, by omega, by omega⟩
    rw [CosmosView.accessibilityDecrement, hsettings]
    rw [sub_accessibilityDecrement rfl hmore]
    push_cast
    rfl
  · exact ⟨1, by rw [accessibilityDecrement_of_le hsettings hone.ge, ← hone, Int.cast_one], le_rfl,
      by decide⟩

/-- One interaction with a rating among the stars. Assumes: the rating is a star already while a
touch is under way, and is at least one star before a decrement. -/
theorem whole_of_step
    (hsettings : page.starRatingCosmosView.settings = CosmosView.storyboardSettings)
    (hlow : 0 ≤ page.starRatingCosmosView.rating) (hhigh : page.starRatingCosmosView.rating ≤ 5)
    (htouching : page.touching = true → page.Whole)
    (hdecrement : interaction = .accessibilityDecrement → 1 ≤ page.starRatingCosmosView.rating)
    (hstep : page.step interaction = some next) : next.Whole := by
  have htouched (x : ℚ) : ∃ stars : ℤ,
      (page.starRatingCosmosView.touched x).rating = stars ∧ 1 ≤ stars ∧ stars ≤ 5 := by
    rw [CosmosView.touched, CosmosView.onDidTouch, hsettings]
    exact touchRating_storyboardSettings _
  cases interaction with
  | touchesBegan x =>
    unfold step at hstep
    split_ifs at hstep
    obtain rfl := Option.some.inj hstep
    exact ⟨hsettings, htouched x, fun hnone ↦ Bool.noConfusion hnone⟩
  | touchesMoved x =>
    unfold step at hstep
    split_ifs at hstep with hunder
    obtain rfl := Option.some.inj hstep
    exact ⟨hsettings, htouched x, fun hnone ↦ absurd (hunder.symm.trans hnone) (by decide)⟩
  | touchesEnded | touchesCancelled =>
    unfold step at hstep
    split_ifs at hstep with hunder
    obtain rfl := Option.some.inj hstep
    have hrating := (htouching hunder).rating
    exact ⟨hsettings, hrating, fun _ _ ↦ eq_of_finish hrating⟩
  | accessibilityIncrement =>
    obtain rfl := Option.some.inj hstep
    have hrating := accessibilityIncrement_whole hsettings hlow hhigh
    exact ⟨hsettings, hrating, fun _ _ ↦ eq_of_finish hrating⟩
  | accessibilityDecrement =>
    obtain rfl := Option.some.inj hstep
    have hrating := accessibilityDecrement_whole hsettings (hdecrement rfl) hhigh
    exact ⟨hsettings, hrating, fun _ _ ↦ eq_of_finish hrating⟩

/-- One interaction with a rating that shows no star. -/
theorem Unrated.step (h : page.Unrated) (hstep : page.step interaction = some next) :
    next.Whole ∨ next.Unrated := by
  by_cases hdecrement : interaction = .accessibilityDecrement
  · right
    subst hdecrement
    obtain rfl := Option.some.inj hstep
    have hsame := accessibilityDecrement_of_le h.settings (h.high.le.trans (by norm_num))
    refine ⟨h.settings, h.touching, ?_, ?_, fun last hlast ↦ ?_⟩
    · exact hsame.symm ▸ h.low
    · exact hsame.symm ▸ h.high
    · have hfloor : ⌊page.starRatingCosmosView.rating⌋ = 0 :=
        Int.floor_eq_zero_iff.mpr ⟨h.low, h.high.trans (by norm_num)⟩
      rw [getLast?_submitted_finish, hsame, truncate_of_nonneg h.low, hfloor] at hlast
      exact (Option.some.inj hlast).symm
  · left
    refine whole_of_step h.settings h.low (h.high.le.trans (by norm_num)) (fun htouching ↦ ?_)
      (fun hdecrements ↦ absurd hdecrements hdecrement) hstep
    exact absurd (h.touching.symm.trans htouching) (by decide)

theorem Whole.step (h : page.Whole) (hstep : page.step interaction = some next) : next.Whole := by
  obtain ⟨stars, hstars, hlow, hhigh⟩ := h.rating
  have hleast : 1 ≤ page.starRatingCosmosView.rating := by
    rw [hstars]
    exact_mod_cast hlow
  have hmost : page.starRatingCosmosView.rating ≤ 5 := by
    rw [hstars]
    exact_mod_cast hhigh
  exact whole_of_step h.settings (zero_le_one.trans hleast) hmost (fun _ ↦ h) (fun _ ↦ hleast) hstep

/-- After the first interaction that leaves the control with a star, or without one. -/
theorem throughout_shown (h : page.Whole ∨ page.Unrated) (interactions : List Interaction) :
    PartialRun.Throughout RatingPage.step Shown page interactions := by
  have hkeep (page : RatingPage) (interaction : Interaction) (next : RatingPage)
      (hpage : page.Whole ∨ page.Unrated) (_ : True) (hstep : page.step interaction = some next) :
      next.Whole ∨ next.Unrated :=
    hpage.elim (fun hwhole ↦ Or.inl (hwhole.step hstep)) fun hunrated ↦ hunrated.step hstep
  exact PartialRun.throughout_of_guarded hkeep
    (fun page hpage ↦ hpage.elim Whole.shown Unrated.shown) h
    (PartialRun.guarded_of_forall_mem (fun _ _ _ ↦ trivial) page)

/-- Assumes: a place whose stored rating is from 0 to 5. On its detail page the stars that are shown
are together the rating that has been submitted last, whenever no touch is under way in a run of
interactions, exactly if the first interaction is not an accessibility decrement of a stored rating
from half a star up to less than one star. -/
theorem shown_iff {currentUser : Option String} {detailPlace : Place}
    (hlow : 0 ≤ detailPlace.rating) (hhigh : detailPlace.rating ≤ 5) {isRightToLeft : Bool}
    {width : ℚ} {interactions : List Interaction} :
    PartialRun.Throughout step Shown
        (viewDidLoad currentUser detailPlace (CosmosView.mainStoryboard isRightToLeft width))
        interactions ↔
      (interactions.head? = some .accessibilityDecrement →
        detailPlace.rating < 1 / 2 ∨ 1 ≤ detailPlace.rating) := by
  set loaded := viewDidLoad currentUser detailPlace (CosmosView.mainStoryboard isRightToLeft width)
    with hloaded
  have hempty (last : ℤ) : loaded.submitted.getLast? ≠ some last := Option.some_ne_none _ ∘ Eq.symm
  have hstart : loaded.Shown := fun _ last hlast ↦ absurd hlast (hempty last)
  constructor
  · rintro hthroughout hfirst
    by_contra hboth
    push Not at hboth
    obtain ⟨hhalf, hless⟩ := hboth
    obtain ⟨rest, rfl⟩ := List.head?_eq_some_iff.mp hfirst
    -- the decrement leaves the stored rating, which shows a star and is truncated to 0
    set decremented := loaded.starRatingCosmosView.accessibilityDecrement with hdecremented
    have hsame : decremented.rating = detailPlace.rating :=
      accessibilityDecrement_of_le rfl hless.le
    have hstars : 0 ≤ decremented.settings.totalStars := (by decide : (0 : ℤ) ≤ 5)
    have hsize : decremented.settings.starSize ≠ 0 := (by decide +kernel : (25 : ℚ) ≠ 0)
    obtain ⟨layers, hlayers⟩ := decremented.exists_sublayers none hstars
    have hsubmitted : (loaded.finish decremented).submitted.getLast? = some 0 := by
      rw [getLast?_submitted_finish, hsame, truncate_of_nonneg hlow,
        Int.floor_eq_zero_iff.mpr ⟨hlow, hless⟩]
    have hround : round detailPlace.rating = 1 := by
      rw [round_eq, Int.floor_eq_iff]
      exact ⟨by push_cast; linarith, by push_cast; linarith⟩
    have hnext := PartialRun.start_of_throughout hthroughout.2 rfl 0 hsubmitted none layers hlayers
    have hsum :
        CosmosRating.displayedRatingFromPreciseRating decremented.rating .full 5 = (0 : ℤ) :=
      (CosmosView.sum_fillLevel hsize hlayers).symm.trans hnext
    rw [hsame, CosmosRating.displayedRatingFromPreciseRating_eq, CosmosRating.rounded,
      hround] at hsum
    norm_num at hsum
  · intro hcondition
    cases interactions with
    | nil => exact hstart
    | cons first rest =>
      refine ⟨hstart, ?_⟩
      cases hstep : loaded.step first with
      | none => trivial
      | some next =>
        refine throughout_shown ?_ rest
        rcases lt_or_ge detailPlace.rating (1 / 2) with hnone | hhalf
        · have hunrated : loaded.Unrated :=
            ⟨rfl, rfl, hlow, hnone, fun last hlast ↦ absurd hlast (hempty last)⟩
          exact hunrated.step hstep
        · have hnoTouch : loaded.touching = true → loaded.Whole :=
            fun htouching ↦ Bool.noConfusion htouching
          refine Or.inl (whole_of_step rfl hlow hhigh hnoTouch ?_ hstep)
          rintro rfl
          exact (hcondition rfl).resolve_left (not_lt.mpr hhalf)

/-- A decrement on the page of a place that nobody has rated, and a touch on its fourth star. -/
theorem shown_iff_sample : PartialRun.Throughout step Shown
    (viewDidLoad none samplePlace (CosmosView.mainStoryboard false 125))
    [.accessibilityDecrement, .touchesBegan 90, .touchesEnded] :=
  (shown_iff (by decide +kernel) (by decide +kernel)).mpr fun _ ↦ Or.inl (by decide +kernel)

end RatingPage

end BeenHere
