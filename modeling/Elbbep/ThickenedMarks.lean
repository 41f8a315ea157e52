import Elbbep.GlyphPoints
import Elbbep.HashChains

/-!
# No ink is lost when marks grow

Every mark of a glyph grows to a block of two by two pixels, in one of four directions, and
all blocks may be moved sideways together.  The bitmap then grows at each side by as much as
the blocks leave it, so that the blocks and the body are inside.
-/

namespace Elbbep

namespace FixIjam

open PythonStruct GlyphDump
open PfoMerge (DictOrder)

variable {dump : GlyphDump} {points : Points}

/-! ## The blocks -/

@[simp]
theorem mem_setKeys (key : Point) (new keys : List Point) :
    key ∈ setKeys keys new ↔ key ∈ keys ∨ key ∈ new := by
  induction new generalizing keys with
  | nil => simp [setKeys]
  | cons first rest ih =>
      have unfolded : setKeys keys (first :: rest) =
          setKeys (if first ∈ keys then keys else keys ++ [first]) rest := rfl
      rw [unfolded, ih, List.mem_cons]
      split
      next known => grind
      next => grind

theorem mean_ok (values : List Int) (nonempty : values ≠ []) : ∃ value, mean values = .ok value :=
  ⟨_, if_neg fun empty => nonempty (List.length_eq_zero_iff.mp empty)⟩

theorem centroids_ok (marked : points.isolatedPoints ≠ []) (body : points.otherPoints ≠ []) :
    ∃ centres, centroids points = .ok centres := by
  obtain ⟨isolatedX, isolatedXEq⟩ := mean_ok (points.isolatedPoints.map Mark.x)
    (by simpa using marked)
  obtain ⟨isolatedY, isolatedYEq⟩ := mean_ok (points.isolatedPoints.map Mark.y)
    (by simpa using marked)
  obtain ⟨otherX, otherXEq⟩ := mean_ok (points.otherPoints.map Prod.fst)
    (by simpa using body)
  obtain ⟨otherY, otherYEq⟩ := mean_ok (points.otherPoints.map Prod.snd)
    (by simpa using body)
  refine ⟨⟨(isolatedX, isolatedY), (otherX, otherY)⟩, ?_⟩
  unfold centroids
  rw [isolatedXEq, isolatedYEq, otherXEq, otherYEq]
  rfl

theorem centroids_error (marked : points.isolatedPoints ≠ []) (noBody : points.otherPoints = []) :
    centroids points = .error .zeroDivisionError := by
  obtain ⟨isolatedX, isolatedXEq⟩ := mean_ok (points.isolatedPoints.map Mark.x)
    (by simpa using marked)
  obtain ⟨isolatedY, isolatedYEq⟩ := mean_ok (points.isolatedPoints.map Mark.y)
    (by simpa using marked)
  unfold centroids
  rw [isolatedXEq, isolatedYEq, noBody]
  rfl

theorem mem_growMark_foldl (width : Int) (centres : Centroids) (key : Point) (marks : List Mark)
    (grown : Grown) : key ∈ (marks.foldl (growMark width centres) grown).ijam ↔
      key ∈ grown.ijam ∨ ∃ mark ∈ marks, key ∈ mark.grow centres := by
  induction marks generalizing grown with
  | nil => simp
  | cons mark marks ih =>
      rw [List.foldl_cons, ih]
      simp only [growMark, mem_setKeys, List.mem_cons, exists_eq_or_imp, or_assoc]

/-- The pixels of the grown marks. -/
theorem growMarks_ok (width : Int) (marked : points.isolatedPoints ≠ [])
    (body : points.otherPoints ≠ []) : ∃ centres grown, growMarks width points = .ok grown ∧
      ∀ key, key ∈ grown.ijam ↔ ∃ mark ∈ points.isolatedPoints, key ∈ mark.grow centres := by
  obtain ⟨centres, centresEq⟩ := centroids_ok marked body
  refine ⟨centres, points.isolatedPoints.foldl (growMark width centres) ⟨[], 0⟩, ?_, ?_⟩
  · unfold growMarks
    rw [centresEq]
    rfl
  · intro key
    rw [mem_growMark_foldl]
    simp

/-! ## Recentring -/

theorem mem_recentrePoint_foldl (width offX : Int) (key : Point) (keys : List Point)
    (recentred : Recentred) :
    key ∈ (keys.foldl (recentrePoint width offX) recentred).ijam ↔
      key ∈ recentred.ijam ∨ (key.1 + offX, key.2) ∈ keys := by
  induction keys generalizing recentred with
  | nil => simp
  | cons first rest ih =>
      rw [List.foldl_cons, ih]
      simp only [recentrePoint, mem_setKeys, List.mem_cons, List.not_mem_nil, or_false, or_assoc]
      have moved : key = (first.1 - offX, first.2) ↔ (key.1 + offX, key.2) = first := by
        simp only [Prod.ext_iff]
        omega
      rw [moved]

/-- The first column of some points. -/
def minX (points : List Point) : Int :=
  (points.map Prod.fst).min?.getD 0

/-- The last column of some points. -/
def maxX (points : List Point) : Int :=
  (points.map Prod.fst).max?.getD 0

theorem pyMin_eq {points : List Point} (nonempty : points ≠ []) :
    pyMin (points.map Prod.fst) = .ok (minX points) := by
  have columns : points.map Prod.fst ≠ [] := by simpa using nonempty
  obtain ⟨least, leastEq⟩ := Option.isSome_iff_exists.mp (List.isSome_min?_iff.mpr columns)
  rw [pyMin, minX, leastEq]
  rfl

theorem pyMax_eq {points : List Point} (nonempty : points ≠ []) :
    pyMax (points.map Prod.fst) = .ok (maxX points) := by
  have columns : points.map Prod.fst ≠ [] := by simpa using nonempty
  obtain ⟨greatest, greatestEq⟩ := Option.isSome_iff_exists.mp (List.isSome_max?_iff.mpr columns)
  rw [pyMax, maxX, greatestEq]
  rfl

/-- By how much the recentring moves the marks to the left. -/
def offX (ijam otherPoints : List Point) : Int :=
  pyRound (((maxX otherPoints - minX otherPoints : Int) : Rat) / 2 -
    ((maxX ijam - minX ijam : Int) : Rat) / 2)

theorem recentre_hit (keyOrder : DictOrder Point) (width : Int) {otherPoints : List Point}
    {grown : Grown} (hit : grown.hitLeft ≠ 0) (marked : grown.ijam ≠ [])
    (body : otherPoints ≠ []) :
    ∃ recentred, recentre keyOrder width otherPoints grown = .ok recentred ∧
      ∀ key, key ∈ recentred.ijam ↔
        (key.1 + offX grown.ijam otherPoints, key.2) ∈ grown.ijam := by
  have result : recentre keyOrder width otherPoints grown =
      .ok ((keyOrder.iterate grown.ijam).foldl
        (recentrePoint width (offX grown.ijam otherPoints)) ⟨[], 0, 0⟩) := by
    unfold recentre
    rw [if_pos hit, pyMin_eq marked, pyMax_eq marked, pyMin_eq body, pyMax_eq body]
    rfl
  refine ⟨_, result, ?_⟩
  intro key
  rw [mem_recentrePoint_foldl, (keyOrder.perm grown.ijam).mem_iff]
  simp

/-- All marks are moved by the same distance, if they are moved at all. -/
theorem recentre_ok (keyOrder : DictOrder Point) (width : Int) {otherPoints : List Point}
    {grown : Grown} (marked : grown.ijam ≠ []) (body : otherPoints ≠ []) :
    ∃ distance recentred, recentre keyOrder width otherPoints grown = .ok recentred ∧
      ∀ key, key ∈ recentred.ijam ↔ (key.1 + distance, key.2) ∈ grown.ijam := by
  by_cases hit : grown.hitLeft = 0
  · refine ⟨0, ⟨grown.ijam, grown.hitLeft, 0⟩, if_neg (not_not.mpr hit), ?_⟩
    simp
  · exact ⟨_, recentre_hit keyOrder width hit marked body⟩

/-! ## The larger bitmap -/

/-- A key is inside of the enlarged bitmap. -/
structure Expansion.Covers (width height : Int) (expansion : Expansion) (key : Point) : Prop where
  left : 0 ≤ key.1 + expansion.sx
  right : key.1 < width + expansion.hdx
  top : 0 ≤ key.2 + expansion.sy
  bottom : key.2 < height + expansion.hdy

/-- The bitmap only grows. -/
structure Expansion.Le (expansion larger : Expansion) : Prop where
  sx : expansion.sx ≤ larger.sx
  sy : expansion.sy ≤ larger.sy
  hdx : expansion.hdx ≤ larger.hdx
  hdy : expansion.hdy ≤ larger.hdy

theorem Expansion.Le.trans {first second third : Expansion} (le : first.Le second)
    (le' : second.Le third) : first.Le third :=
  ⟨le.sx.trans le'.sx, le.sy.trans le'.sy, le.hdx.trans le'.hdx, le.hdy.trans le'.hdy⟩

theorem Expansion.Covers.mono {width height : Int} {expansion larger : Expansion} {key : Point}
    (covers : expansion.Covers width height key) (le : expansion.Le larger) :
    larger.Covers width height key := by
  obtain ⟨left, right, top, bottom⟩ := covers
  obtain ⟨sx, sy, hdx, hdy⟩ := le
  constructor <;> omega

theorem le_expandPoint (width height : Int) (expansion : Expansion) (key : Point) :
    expansion.Le (expandPoint width height expansion key) := by
  constructor <;> (simp only [expandPoint]; split <;> omega)

theorem expandPoint_covers (width height : Int) {expansion : Expansion}
    (nonneg : (⟨0, 0, 0, 0⟩ : Expansion).Le expansion) (key : Point) :
    (expandPoint width height expansion key).Covers width height key := by
  obtain ⟨sx, sy, hdx, hdy⟩ := nonneg
  dsimp only at sx sy hdx hdy
  constructor <;> (simp only [expandPoint]; split <;> omega)

theorem expandPoint_foldl (width height : Int) (keys : List Point) (expansion : Expansion)
    (nonneg : (⟨0, 0, 0, 0⟩ : Expansion).Le expansion) :
    expansion.Le (keys.foldl (expandPoint width height) expansion) ∧
      ∀ key ∈ keys, (keys.foldl (expandPoint width height) expansion).Covers width height key := by
  induction keys generalizing expansion with
  | nil => exact ⟨⟨le_rfl, le_rfl, le_rfl, le_rfl⟩, by simp⟩
  | cons first rest ih =>
      have grows := le_expandPoint width height expansion first
      obtain ⟨le, covers⟩ := ih _ (nonneg.trans grows)
      refine ⟨grows.trans le, ?_⟩
      intro key member
      rcases List.mem_cons.mp member with rfl | later
      · exact (expandPoint_covers width height nonneg key).mono le
      · exact covers key later

theorem expand_nonneg (keyOrder : DictOrder Point) (width height : Int) (ijam : List Point) :
    0 ≤ (expand keyOrder width height ijam).sx ∧ 0 ≤ (expand keyOrder width height ijam).sy ∧
      0 ≤ (expand keyOrder width height ijam).hdx ∧ 0 ≤ (expand keyOrder width height ijam).hdy :=
  have le := (expandPoint_foldl width height (keyOrder.iterate ijam) _
    ⟨le_rfl, le_rfl, le_rfl, le_rfl⟩).1
  ⟨le.sx, le.sy, le.hdx, le.hdy⟩

theorem expand_covers (keyOrder : DictOrder Point) (width height : Int)
    {ijam : List Point} {key : Point}
    (member : key ∈ ijam) : (expand keyOrder width height ijam).Covers width height key :=
  (expandPoint_foldl width height _ _ ⟨le_rfl, le_rfl, le_rfl, le_rfl⟩).2 key
    ((keyOrder.perm ijam).mem_iff.mpr member)

/-! ## The text of a bitmap -/

/-- The format of a dump: one line for each row, with one character for each pixel. -/
def GlyphDump.WellFormed (dump : GlyphDump) : Prop :=
  ∃ rows : List (List Char), (rows.length : Int) = dump.height ∧
    (∀ row ∈ rows, (row.length : Int) = dump.width ∧ ∀ pixel ∈ row, pixel = '#' ∨ pixel = ' ') ∧
    dump.text = rows.flatMap (· ++ ['\n'])

/-- The number of pixels that `process_glyph` asks for. -/
def GlyphDump.Sized (dump : GlyphDump) : Prop :=
  (dump.bmpStr.length : Int) = dump.width * dump.height

instance (dump : GlyphDump) : Decidable dump.Sized :=
  inferInstanceAs (Decidable (_ = _))

theorem filter_row {row : List Char} (pixels : ∀ pixel ∈ row, pixel = '#' ∨ pixel = ' ') :
    (row ++ ['\n']).filter (· ≠ '\n') = row := by
  rw [List.filter_append, List.filter_eq_self.mpr]
  · simp
  · intro pixel member
    rcases pixels pixel member with rfl | rfl <;> rfl

/-- The pixels of a text in this format. -/
theorem filter_rows {rows : List (List Char)}
    (pixels : ∀ row ∈ rows, ∀ pixel ∈ row, pixel = '#' ∨ pixel = ' ') :
    (rows.flatMap (· ++ ['\n'])).filter (· ≠ '\n') = rows.flatten := by
  rw [List.filter_flatMap, List.flatMap_def]
  apply congrArg
  calc rows.map (fun row => (row ++ ['\n']).filter (· ≠ '\n'))
      = rows.map id := List.map_congr_left fun row member => filter_row (pixels row member)
    _ = rows := List.map_id rows

/-- A dump in this format can be read. -/
theorem GlyphDump.WellFormed.sized {dump : GlyphDump} (wellFormed : dump.WellFormed) :
    dump.Sized := by
  obtain ⟨rows, rowCount, lengths, textEq⟩ := wellFormed
  have bmpStrEq : dump.bmpStr = rows.flatMap id := by
    unfold bmpStr
    rw [textEq, filter_rows fun row member => (lengths row member).2, List.flatMap_id]
  have uniform : ∀ row ∈ rows, (id row).length = dump.width.toNat := by
    intro row member
    have := (lengths row member).1
    simp only [id_eq]
    omega
  unfold Sized
  rw [bmpStrEq, HashChains.length_flatMap_uniform uniform]
  cases rows with
  | nil =>
      simp at rowCount
      simp [← rowCount]
  | cons row rows =>
      have := (lengths row List.mem_cons_self).1
      rw [Nat.cast_mul, rowCount, Int.toNat_of_nonneg (by omega)]

theorem getElem?_pyRange {count value : Int} (nonneg : 0 ≤ value) (small : value < count) :
    (pyRange count)[value.toNat]? = some value := by
  simp only [pyRange, List.getElem?_map]
  rw [List.getElem?_range (by omega)]
  simp [nonneg]

/-- The pixels of a bitmap row by row. -/
theorem getElem?_rows {width height : Int} (cell : Int → Int → Char) {x y : Int} (x_nonneg : 0 ≤ x)
    (x_lt : x < width) (y_nonneg : 0 ≤ y) (y_lt : y < height) :
    ((pyRange height).flatMap fun y => (pyRange width).map fun x => cell x y)[
      (y * width + x).toNat]? = some (cell x y) := by
  have uniform : ∀ y ∈ pyRange height,
      ((pyRange width).map fun x => cell x y).length = width.toNat := by
    intro y _
    simp [pyRange]
  have position : (y * width + x).toNat = y.toNat * width.toNat + x.toNat := by
    rw [Int.toNat_add (Int.mul_nonneg y_nonneg (by omega)) x_nonneg,
      Int.toNat_mul y_nonneg (by omega)]
  have row := HashChains.take_drop_flatMap uniform (getElem?_pyRange y_nonneg y_lt) []
  rw [List.append_nil] at row
  rw [position, ← List.getElem?_drop, ← List.getElem?_take_of_lt (by omega : x.toNat < width.toNat),
    row, List.getElem?_map, getElem?_pyRange x_nonneg x_lt]
  rfl

/-- The rows of a bitmap with some set keys. -/
def keyRows (width height sx sy : Int) (keys : List Point) : List (List Char) :=
  (pyRange height).map fun y =>
    (pyRange width).map fun x => pixelChar keys (x - sx, y - sy)

theorem pixel_keyRows {width height sx sy : Int} {keys : List Point} :
    ∀ row ∈ keyRows width height sx sy keys, ∀ pixel ∈ row, pixel = '#' ∨ pixel = ' ' := by
  intro row inRows pixel inRow
  obtain ⟨y, -, rfl⟩ := List.mem_map.mp inRows
  obtain ⟨x, -, rfl⟩ := List.mem_map.mp inRow
  unfold pixelChar
  split
  · exact Or.inl rfl
  · exact Or.inr rfl

theorem bitmapText_eq (width height sx sy : Int) (keys : List Point) :
    bitmapText width height sx sy keys =
      (keyRows width height sx sy keys).flatMap (· ++ ['\n']) := by
  rw [keyRows, List.flatMap_map]
  rfl

section Written

variable {written : GlyphDump} {sx sy : Int} {keys : List Point}
  (textEq : written.text = bitmapText written.width written.height sx sy keys)

include textEq

theorem wellFormed_of_text (width_nonneg : 0 ≤ written.width) (height_nonneg : 0 ≤ written.height) :
    written.WellFormed := by
  refine ⟨keyRows written.width written.height sx sy keys, ?_, ?_, ?_⟩
  · simp [keyRows, pyRange, height_nonneg]
  · intro row member
    refine ⟨?_, pixel_keyRows row member⟩
    obtain ⟨y, -, rfl⟩ := List.mem_map.mp member
    simp [pyRange, width_nonneg]
  · rw [textEq, bitmapText_eq]

/-- A key is a set pixel if it is inside. -/
theorem isSet_of_text {key : Point} (member : key ∈ keys) (left : 0 ≤ key.1 + sx)
    (right : key.1 + sx < written.width) (top : 0 ≤ key.2 + sy)
    (bottom : key.2 + sy < written.height) : written.IsSet (key + (sx, sy)) := by
  have bmpStrEq : written.bmpStr = (pyRange written.height).flatMap fun y =>
      (pyRange written.width).map fun x => pixelChar keys (x - sx, y - sy) := by
    unfold bmpStr
    rw [textEq, bitmapText_eq, filter_rows pixel_keyRows, keyRows, List.flatMap_def]
  have inside : 0 ≤ (key + (sx, sy)).1 ∧ (key + (sx, sy)).1 < written.width ∧
      0 ≤ (key + (sx, sy)).2 ∧ (key + (sx, sy)).2 < written.height := ⟨left, right, top, bottom⟩
  unfold IsSet bmpData
  rw [if_pos inside, bmpStrEq, getElem?_rows _ inside.1 inside.2.1 inside.2.2.1 inside.2.2.2]
  simp [pixelChar, member]

end Written

/-! ## The whole glyph -/

namespace GlyphDump

/-- A mark, given by its right pixel. -/
def IsMark (dump : GlyphDump) (point : Point) : Prop :=
  dump.IsDot point ∨ dump.IsDash point

def HasMark (dump : GlyphDump) : Prop :=
  ∃ point, dump.IsMark point

def HasBody (dump : GlyphDump) : Prop :=
  ∃ point, dump.IsBody point

theorem markAt_isMark {point : Point} (isMark : dump.IsMark point) :
    ∃ mark, dump.markAt point = some mark ∧ mark.x = point.1 ∧ mark.y = point.2 ∧
      (mark.sx = none ∨ mark.sx = some (-1)) ∧ mark.sy = none ∧
      (dump.IsDash point → mark.sx = some (-1)) := by
  by_cases dot : dump.IsDot point
  · exact ⟨_, if_pos dot, rfl, rfl, Or.inl rfl, rfl, fun dash => absurd dot dash.not_isDot⟩
  · have dash := isMark.resolve_left dot
    exact ⟨_, (if_neg dot).trans (if_pos dash), rfl, rfl, Or.inr rfl, rfl, fun _ => rfl⟩

theorem isolatedPoints_ne_nil_iff (dump : GlyphDump) :
    (findPoints dump).isolatedPoints ≠ [] ↔ dump.HasMark := by
  constructor
  · intro nonempty
    obtain ⟨mark, member⟩ := List.exists_mem_of_ne_nil _ nonempty
    obtain ⟨point, marked⟩ := (mem_isolatedPoints dump mark).mp member
    refine ⟨point, ?_⟩
    by_contra notMark
    obtain ⟨notDot, notDash⟩ := not_or.mp notMark
    rw [markAt, if_neg notDot, if_neg notDash] at marked
    cases marked
  · rintro ⟨point, isMark⟩
    obtain ⟨mark, marked, -⟩ := markAt_isMark isMark
    exact List.ne_nil_of_mem ((mem_isolatedPoints dump mark).mpr ⟨point, marked⟩)

theorem otherPoints_ne_nil_iff (dump : GlyphDump) :
    (findPoints dump).otherPoints ≠ [] ↔ dump.HasBody := by
  constructor
  · intro nonempty
    obtain ⟨point, member⟩ := List.exists_mem_of_ne_nil _ nonempty
    exact ⟨point, (mem_otherPoints dump point).mp member⟩
  · rintro ⟨point, isBody⟩
    exact List.ne_nil_of_mem ((mem_otherPoints dump point).mpr isBody)

end GlyphDump

theorem direction_unit {forced : Option Int} (value : Int) (isolatedCentroid otherCentroid : Rat)
    (unit : forced = none ∨ forced = some (-1)) :
    direction forced value isolatedCentroid otherCentroid = 1 ∨
      direction forced value isolatedCentroid otherCentroid = -1 := by
  rcases unit with rfl | rfl
  · simp only [direction]
    grind
  · exact Or.inr rfl

/-- The direction in which the mark at a pixel grows. -/
def growthAt (centres : Centroids) (dump : GlyphDump) (point : Point) : Int × Int :=
  (dump.markAt point).elim (0, 0) fun mark => (mark.growX centres, mark.growY centres)

/-- The new dump shows the body, moved by one distance, and the blocks of all marks, moved by
another one.  All pixels are in the body or in a block. -/
structure KeepsInk (dump written : GlyphDump) (bodyShift markShift : Point)
    (growth : Point → Int × Int) : Prop where
  body : ∀ point, dump.IsBody point → written.IsSet (point + bodyShift)
  unit : ∀ point, dump.IsMark point → ((growth point).1 = 1 ∨ (growth point).1 = -1) ∧
    ((growth point).2 = 1 ∨ (growth point).2 = -1)
  marks : ∀ point, dump.IsMark point →
    ∀ pixel ∈ block point.1 point.2 (growth point).1 (growth point).2,
      written.IsSet (pixel + markShift)
  all : ∀ point, dump.IsSet point → dump.IsBody point ∨ ∃ mark, dump.IsMark mark ∧
    point ∈ block mark.1 mark.2 (growth mark).1 (growth mark).2

theorem growthAt_unit (centres : Centroids) {point : Point} (isMark : dump.IsMark point) :
    ((growthAt centres dump point).1 = 1 ∨ (growthAt centres dump point).1 = -1) ∧
      ((growthAt centres dump point).2 = 1 ∨ (growthAt centres dump point).2 = -1) := by
  obtain ⟨mark, marked, -, -, sx, sy, -⟩ := markAt_isMark isMark
  rw [growthAt, marked]
  exact ⟨direction_unit _ _ _ sx, direction_unit _ _ _ (Or.inl sy)⟩

theorem block_growthAt (centres : Centroids) {point : Point} {mark : Mark}
    (marked : dump.markAt point = some mark) (x : mark.x = point.1) (y : mark.y = point.2) :
    block point.1 point.2 (growthAt centres dump point).1 (growthAt centres dump point).2 =
      mark.grow centres := by
  rw [growthAt, marked, ← x, ← y]
  rfl

/-- A block covers the pixels of its mark. -/
theorem mem_block_growthAt (centres : Centroids) {point : Point} (isSet : dump.IsSet point) :
    dump.IsBody point ∨ ∃ mark, dump.IsMark mark ∧
      point ∈ block mark.1 mark.2 (growthAt centres dump mark).1
        (growthAt centres dump mark).2 := by
  by_cases isMark : dump.IsMark point
  · exact Or.inr ⟨point, isMark, List.mem_cons_self⟩
  · obtain ⟨notDot, notDash⟩ := not_or.mp isMark
    by_cases dash : dump.IsDash (behind point)
    · refine Or.inr ⟨behind point, Or.inr dash, ?_⟩
      obtain ⟨mark, marked, -, -, -, -, forced⟩ := markAt_isMark (Or.inr dash)
      have left : (growthAt centres dump (behind point)).1 = -1 := by
        rw [growthAt, marked]
        simp only [Option.elim_some, Mark.growX, forced dash, direction]
      rw [left]
      simp [block, behind]
    · exact Or.inl ⟨isSet, notDot, notDash, dash⟩

/-- By how much the body moves in the bitmap, with the columns that are new at both sides. -/
def Expansion.bodyShift (expansion : Expansion) : Point :=
  (expansion.hdx + expansion.sx, expansion.sy)

/-- By how much the marks move in the bitmap. -/
def Expansion.markShift (expansion : Expansion) : Point :=
  (expansion.sx, expansion.sy)

section Rebuilt

variable (keyOrder : DictOrder Point) (dump : GlyphDump) (otherPoints : List Point)
  (recentred : Recentred)

theorem rebuild_wellFormed (width_nonneg : 0 ≤ dump.width) (height_nonneg : 0 ≤ dump.height) :
    (rebuild keyOrder dump otherPoints recentred).WellFormed := by
  have nonneg := expand_nonneg keyOrder dump.width dump.height recentred.ijam
  apply wellFormed_of_text rfl
  · simp only [rebuild]
    omega
  · simp only [rebuild]
    omega

theorem rebuild_isSet_body {point : Point} (member : point ∈ otherPoints)
    (inside : 0 ≤ point.1 ∧ point.1 < dump.width ∧ 0 ≤ point.2 ∧ point.2 < dump.height) :
    (rebuild keyOrder dump otherPoints recentred).IsSet
      (point + (expand keyOrder dump.width dump.height recentred.ijam).bodyShift) := by
  have nonneg := expand_nonneg keyOrder dump.width dump.height recentred.ijam
  have shift (expansion : Expansion) : point + expansion.bodyShift =
      (point.1 + expansion.hdx, point.2) + (expansion.sx, expansion.sy) := by
    apply Prod.ext
    · simp only [Expansion.bodyShift, Prod.fst_add]
      omega
    · simp only [Expansion.bodyShift, Prod.snd_add]
  rw [shift]
  apply isSet_of_text rfl
  · apply (mem_setKeys _ _ _).mpr
    exact Or.inr (List.mem_flatMap.mpr ⟨point, member, List.mem_cons_self⟩)
  all_goals
    simp only [rebuild]
    omega

theorem rebuild_isSet_mark {key : Point} (member : key ∈ recentred.ijam) :
    (rebuild keyOrder dump otherPoints recentred).IsSet
      (key + (expand keyOrder dump.width dump.height recentred.ijam).markShift) := by
  obtain ⟨left, right, top, bottom⟩ := expand_covers keyOrder dump.width dump.height member
  apply isSet_of_text rfl ((mem_setKeys _ _ _).mpr (Or.inl member)) left _ top
  · simp only [rebuild]
    omega
  · simp only [rebuild]
    omega

end Rebuilt

/-- The grown marks of a glyph with marks and a body. -/
theorem exists_growMarks (hasMark : dump.HasMark) (hasBody : dump.HasBody) :
    ∃ centres grown, growMarks dump.width (findPoints dump) = .ok grown ∧ grown.ijam ≠ [] ∧
      ∀ key, key ∈ grown.ijam ↔
        ∃ mark ∈ (findPoints dump).isolatedPoints, key ∈ mark.grow centres := by
  have marked := (isolatedPoints_ne_nil_iff dump).mpr hasMark
  have body := (otherPoints_ne_nil_iff dump).mpr hasBody
  obtain ⟨centres, grown, grownOk, mem_grown⟩ := growMarks_ok dump.width marked body
  obtain ⟨mark, member⟩ := List.exists_mem_of_ne_nil _ marked
  refine ⟨centres, grown, grownOk, ?_, mem_grown⟩
  exact List.ne_nil_of_mem ((mem_grown _).mpr ⟨mark, member, List.mem_cons_self⟩)

/-- The run of `process_glyph` on a glyph with marks and a body. -/
theorem processGlyph_ok (keyOrder : DictOrder Point) (sized : dump.Sized) (hasMark : dump.HasMark)
    (hasBody : dump.HasBody) : ∃ centres distance recentred,
      processGlyph keyOrder dump =
        .ok (some (rebuild keyOrder dump (findPoints dump).otherPoints recentred)) ∧
      ∀ mark ∈ (findPoints dump).isolatedPoints, ∀ key ∈ mark.grow centres,
        key - (distance, 0) ∈ recentred.ijam := by
  have marked := (isolatedPoints_ne_nil_iff dump).mpr hasMark
  have body := (otherPoints_ne_nil_iff dump).mpr hasBody
  obtain ⟨centres, grown, grownOk, grownMarked, mem_grown⟩ := exists_growMarks hasMark hasBody
  obtain ⟨distance, recentred, recentredOk, mem_recentred⟩ :=
    recentre_ok keyOrder dump.width grownMarked body
  refine ⟨centres, distance, recentred, ?_, ?_⟩
  · apply (if_neg (not_not.mpr sized)).trans ((if_neg marked).trans _)
    rw [grownOk]
    simp only [bind, Except.bind, recentredOk]
  · intro mark isMark key inBlock
    apply (mem_recentred _).mpr
    rw [Prod.fst_sub, Prod.snd_sub, Int.sub_add_cancel, Int.sub_zero]
    exact (mem_grown key).mpr ⟨mark, isMark, inBlock⟩

/-- The new bitmap of a glyph with a body. -/
theorem rebuild_keepsInk (keyOrder : DictOrder Point) {recentred : Recentred} {distance : Int}
    {centres : Centroids}
    (moved : ∀ mark ∈ (findPoints dump).isolatedPoints, ∀ key ∈ mark.grow centres,
      key - (distance, 0) ∈ recentred.ijam) :
    KeepsInk dump (rebuild keyOrder dump (findPoints dump).otherPoints recentred)
      (expand keyOrder dump.width dump.height recentred.ijam).bodyShift
      ((expand keyOrder dump.width dump.height recentred.ijam).markShift - (distance, 0))
      (growthAt centres dump) where
  body := fun point isBody => rebuild_isSet_body keyOrder dump _ recentred
    ((mem_otherPoints dump point).mpr isBody)
    ((mem_scanOrder point).mp (mem_scanOrder_of_isSet isBody.1))
  unit := fun point isMark => growthAt_unit centres isMark
  marks := by
    intro point isMark pixel inBlock
    obtain ⟨mark, marked, x, y, -⟩ := markAt_isMark isMark
    rw [block_growthAt centres marked x y] at inBlock
    have member := moved mark ((mem_isolatedPoints dump mark).mpr ⟨point, marked⟩) pixel inBlock
    have isSet := rebuild_isSet_mark keyOrder dump (findPoints dump).otherPoints recentred member
    rw [sub_add_eq_add_sub] at isSet
    rw [← add_sub_assoc]
    exact isSet
  all := fun point isSet => mem_block_growthAt centres isSet

theorem rebuild_wellFormed_of_body (keyOrder : DictOrder Point) (hasBody : dump.HasBody)
    (otherPoints : List Point) (recentred : Recentred) :
    (rebuild keyOrder dump otherPoints recentred).WellFormed := by
  obtain ⟨point, isBody⟩ := hasBody
  have inside := (mem_scanOrder point).mp (mem_scanOrder_of_isSet isBody.1)
  exact rebuild_wellFormed _ _ _ _ (by omega) (by omega)

/-- No ink is lost: the new bitmap has the recorded size, and shows the body and all blocks. -/
theorem processGlyph_keeps_ink (keyOrder : DictOrder Point) (dump : GlyphDump) (sized : dump.Sized)
    (hasMark : dump.HasMark) (hasBody : dump.HasBody) :
    ∃ written bodyShift markShift growth, processGlyph keyOrder dump = .ok (some written) ∧
      written.WellFormed ∧ written.Sized ∧
      KeepsInk dump written bodyShift markShift growth := by
  obtain ⟨centres, distance, recentred, runOk, moved⟩ :=
    processGlyph_ok keyOrder sized hasMark hasBody
  have wellFormed := rebuild_wellFormed_of_body keyOrder hasBody (findPoints dump).otherPoints
    recentred
  exact ⟨_, _, _, _, runOk, wellFormed, wellFormed.sized, rebuild_keepsInk keyOrder moved⟩

/-- The keys in the order in which they were set. -/
def insertionOrder : DictOrder Point :=
  ⟨id, fun _ => List.Perm.refl _⟩

/-- A dot over the left end of a line. -/
def dottedLine : GlyphDump :=
  ⟨5, 3, 0, 0, 6, "#    \n     \n#####\n".toList⟩

theorem processGlyph_keeps_ink_dottedLine :
    ∃ written bodyShift markShift growth,
      processGlyph insertionOrder dottedLine = .ok (some written) ∧
      written.WellFormed ∧ written.Sized ∧
      KeepsInk dottedLine written bodyShift markShift growth :=
  processGlyph_keeps_ink insertionOrder dottedLine (by decide +kernel)
    ⟨(0, 0), Or.inl (by decide +kernel)⟩ ⟨(0, 2), by decide +kernel⟩

/-! ## Glyphs without a body -/

theorem processGlyph_none (keyOrder : DictOrder Point) (sized : dump.Sized)
    (noMark : ¬dump.HasMark) :
    processGlyph keyOrder dump = .ok none := by
  have empty : (findPoints dump).isolatedPoints = [] := by
    by_contra marked
    exact noMark ((isolatedPoints_ne_nil_iff dump).mp marked)
  exact (if_neg (not_not.mpr sized)).trans (if_pos empty)

/-- The centroid of the body is a division by zero if there is none. -/
theorem processGlyph_error (keyOrder : DictOrder Point) (sized : dump.Sized)
    (hasMark : dump.HasMark)
    (noBody : ¬dump.HasBody) : processGlyph keyOrder dump = .error .zeroDivisionError := by
  have marked := (isolatedPoints_ne_nil_iff dump).mpr hasMark
  have empty : (findPoints dump).otherPoints = [] := by
    by_contra body
    exact noBody ((otherPoints_ne_nil_iff dump).mp body)
  have grownError : growMarks dump.width (findPoints dump) = .error .zeroDivisionError := by
    unfold growMarks
    rw [centroids_error marked empty]
    rfl
  apply (if_neg (not_not.mpr sized)).trans ((if_neg marked).trans _)
  rw [grownError]
  rfl

/-- A glyph is accepted exactly if it has no mark, or something else beside its marks. -/
theorem processGlyph_accepts_iff (keyOrder : DictOrder Point) (dump : GlyphDump)
    (sized : dump.Sized) :
    (∃ result, processGlyph keyOrder dump = .ok result ∧ (result = none ↔ ¬dump.HasMark) ∧
      ∀ written ∈ result, written.WellFormed) ↔ ¬dump.HasMark ∨ dump.HasBody := by
  by_cases hasMark : dump.HasMark
  · by_cases hasBody : dump.HasBody
    · obtain ⟨centres, distance, recentred, runOk, -⟩ :=
        processGlyph_ok keyOrder sized hasMark hasBody
      refine iff_of_true ⟨_, runOk, by simp [hasMark], ?_⟩ (Or.inr hasBody)
      intro written isWritten
      obtain rfl := Option.some.inj isWritten
      exact rebuild_wellFormed_of_body keyOrder hasBody _ recentred
    · refine iff_of_false ?_ (by simp [hasMark, hasBody])
      rintro ⟨result, runOk, -⟩
      rw [processGlyph_error keyOrder sized hasMark hasBody] at runOk
      cases runOk
  · exact iff_of_true ⟨none, processGlyph_none keyOrder sized hasMark, by simp [hasMark], by simp⟩
      (Or.inl hasMark)

theorem processGlyph_accepts_iff_dottedLine :
    dottedLine.HasMark ∧ ∃ written, processGlyph insertionOrder dottedLine = .ok (some written) ∧
      written.WellFormed := by
  have hasMark : dottedLine.HasMark := ⟨(0, 0), Or.inl (by decide +kernel)⟩
  have hasBody : dottedLine.HasBody := ⟨(0, 2), by decide +kernel⟩
  obtain ⟨result, run, none, wellFormed⟩ :=
    (processGlyph_accepts_iff insertionOrder dottedLine (by decide +kernel)).mpr (Or.inr hasBody)
  cases result with
  | none => exact absurd hasMark (none.mp rfl)
  | some written => exact ⟨hasMark, written, run, wellFormed written rfl⟩

/-- A glyph that is nothing but a dot. -/
def singleDot : GlyphDump :=
  ⟨1, 1, 0, 0, 2, ['#', '\n']⟩

theorem processGlyph_singleDot : singleDot.WellFormed ∧
    ¬∃ result, processGlyph insertionOrder singleDot = .ok result := by
  refine ⟨⟨[['#']], rfl, by simp [singleDot], rfl⟩, ?_⟩
  rintro ⟨result, runOk⟩
  have failed : processGlyph insertionOrder singleDot = .error .zeroDivisionError := by
    decide +kernel
  rw [failed] at runOk
  cases runOk

end FixIjam

end Elbbep
