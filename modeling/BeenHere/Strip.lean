import BeenHere.PlaceRecord

/-!
# The picture strip and the viewer

The strip of a detail page has one cell for each image name of the place, and the full-screen viewer
has one for each value of the dictionary of loaded images. Both take their contents from the values
in the order in which the dictionary happens to enumerate them, so a row shows its own image, and
opens the viewer at it, for all rows exactly if all images are loaded and the dictionary enumerates
them in the order of the names (`showsByIndex_iff`).
-/

set_option autoImplicit false
set_option relaxedAutoImplicit false

namespace BeenHere

/-- The values of a dictionary in an order in which it may enumerate them. -/
structure Enumeration {Key Value : Type*} (entries : Dictionary Key Value) where
  values : List Value
  complete : (values : Multiset Value) = entries.values

namespace PlaceDetail

/-- A `PlaceDetailCollectionViewCell`: its image, and whether its indicator is animating. -/
structure Cell where
  image : Option Data
  loading : Bool
  deriving DecidableEq

/-- A cell after `awakeFromNib`. -/
def Cell.awake : Cell := ⟨none, true⟩

/-- An `ImageViewerViewController`. -/
structure ImageViewer where
  data : List Data
  placeName : String
  initialImageIndex : ℕ
  deriving DecidableEq

def numberOfItemsInSection (detailPlace : Place) : ℕ := detailPlace.imageNames.length

/-- `collectionView(_:cellForItemAt:)` for a dequeued cell, which may have been used for another
row. -/
def cellForItemAt (values : List Data) (cell : Cell) (row : ℕ) : Cell :=
  if h : values.length > row then ⟨some values[row], false⟩ else cell

def didSelectItemAt (detailPlace : Place) (values : List Data) (row : ℕ) : ImageViewer :=
  ⟨values, detailPlace.placeName, row⟩

namespace ImageViewer

def numberOfItemsInSection (viewer : ImageViewer) : ℕ := viewer.data.length

/-- `viewWillAppear`: the item that the viewer scrolls to. An item that is not there raises an
exception. -/
def viewWillAppear (viewer : ImageViewer) : Option ℕ :=
  if viewer.initialImageIndex < viewer.numberOfItemsInSection then some viewer.initialImageIndex
  else none

def cellForItemAt (viewer : ImageViewer) (row : ℕ) : Option Data := viewer.data[row]?

end ImageViewer

/-- The row of an image name shows the image of that name, if it is loaded, and a tap on the row
opens the viewer at the image that the row shows. -/
structure ShowsByIndex (detailPlace : Place) (values : List Data) (cell : Cell) (row : ℕ)
    (name : String) : Prop where
  strip : (cellForItemAt values cell row).image = detailPlace.placeImages.lookup name
  viewer : ∃ item, (didSelectItemAt detailPlace values row).viewWillAppear = some item ∧
    (didSelectItemAt detailPlace values row).cellForItemAt item =
      (cellForItemAt values cell row).image

variable {detailPlace : Place} {values : List Data} {cell : Cell} {row : ℕ} {name : String}

/-- The viewer opens at the image that the row shows whenever it opens at all. -/
theorem showsByIndex_row_iff :
    ShowsByIndex detailPlace values cell row name ↔
      values[row]?.map some = some (detailPlace.placeImages.lookup name) := by
  constructor
  · rintro ⟨hstrip, item, hitem, _⟩
    unfold ImageViewer.viewWillAppear at hitem
    split_ifs at hitem with hopens
    have hrow : values.length > row := hopens
    have hvalue : values[row]? = some values[row] := List.getElem?_eq_getElem hrow
    rw [cellForItemAt, dif_pos hrow] at hstrip
    rw [hvalue, Option.map_some, ← hstrip]
  · intro hvalue
    obtain ⟨data, hdata, hname⟩ := Option.map_eq_some_iff.mp hvalue
    obtain ⟨hrow, hget⟩ := List.getElem?_eq_some_iff.mp hdata
    have hcell : cellForItemAt values cell row = ⟨some data, false⟩ := by
      rw [cellForItemAt, dif_pos hrow, hget]
    refine ⟨by rw [hcell, hname], row, if_pos hrow, ?_⟩
    rw [hcell]
    exact hdata

/-- All rows of the strip show the image of their name and open the viewer at it exactly if every
name is loaded and the enumeration of the loaded images begins with the images of the names, in
their order. What the dequeued cells showed before does not matter. -/
theorem showsByIndex_iff (detailPlace : Place) (enumeration : Enumeration detailPlace.placeImages)
    (dequeued : ℕ → Cell) :
    (∀ row name, detailPlace.imageNames[row]? = some name →
      ShowsByIndex detailPlace enumeration.values (dequeued row) row name) ↔
    detailPlace.imageNames.map (fun name ↦ detailPlace.placeImages.lookup name) <+:
      enumeration.values.map some := by
  rw [List.prefix_iff_getElem?]
  constructor
  · intro hrows row hrow
    rw [List.length_map] at hrow
    rw [List.getElem?_map, List.getElem_map]
    exact showsByIndex_row_iff.mp (hrows row _ (List.getElem?_eq_getElem hrow))
  · intro hprefix row name hname
    obtain ⟨hrow, hget⟩ := List.getElem?_eq_some_iff.mp hname
    have hvalue := hprefix row (by rwa [List.length_map])
    rw [List.getElem?_map, List.getElem_map, hget] at hvalue
    exact showsByIndex_row_iff.mpr hvalue

/-- A place with two images, of which only the second is loaded. -/
def halfLoaded : Place :=
  { samplePlace with
    imageNames := ["boyana.jpg", "vitosha.jpg"]
    placeImages := (∅ : Dictionary String Data).insert "vitosha.jpg" [2] }

/-- The only order of the one image that is loaded. -/
def halfLoadedOrder : Enumeration halfLoaded.placeImages := ⟨[[2]], by decide⟩

/-- The first row shows the image of the second, and a tap on the second opens the viewer outside
its data. -/
theorem showsByIndex_counterexample :
    (cellForItemAt halfLoadedOrder.values Cell.awake 0).image = some [2] ∧
      halfLoaded.placeImages.lookup "boyana.jpg" = none ∧
      (didSelectItemAt halfLoaded halfLoadedOrder.values 1).viewWillAppear = none ∧
      ¬ ∀ row name, halfLoaded.imageNames[row]? = some name →
        ShowsByIndex halfLoaded halfLoadedOrder.values Cell.awake row name := by
  refine ⟨by decide, by decide, by decide, fun hrows ↦ ?_⟩
  have hfirst := (hrows 0 "boyana.jpg" rfl).strip
  revert hfirst
  decide

end PlaceDetail

end BeenHere
