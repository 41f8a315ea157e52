import Elbbep.PfoMerge

/-!
# Thickening the dots of letters

`process_glyph` of `fonts/fix_ijam.py`.  The dots of the letters (the i'jam) are often single
pixels in a rendered glyph.  The script looks for them in a dump of the glyph, lets each one
grow to two by two pixels, and enlarges the bitmap where that is needed.

The script runs under the second version of the language, where `round` takes a half away
from zero, and where a dictionary gives its keys in an order of its own.
-/

namespace Elbbep

namespace FixIjam

open PythonStruct
open PfoMerge (DictOrder)

abbrev Point := Int × Int

/-- A dump of a glyph: the record in its first line, and the text behind that line. -/
structure GlyphDump where
  width : Int
  height : Int
  left : Int
  bottom : Int
  advance : Int
  text : List Char
  deriving DecidableEq, Repr

/-- `range(count)`. -/
def pyRange (count : Int) : List Int :=
  (List.range count.toNat).map Int.ofNat

namespace GlyphDump

/-- The text without its line ends. -/
def bmpStr (dump : GlyphDump) : List Char :=
  dump.text.filter (· ≠ '\n')

/-- The lookup of a point in `bmp_data`, which is `none` for a missing key. -/
def bmpData (dump : GlyphDump) (point : Point) : Option Bool :=
  if 0 ≤ point.1 ∧ point.1 < dump.width ∧ 0 ≤ point.2 ∧ point.2 < dump.height then
    some (dump.bmpStr[(point.2 * dump.width + point.1).toNat]? = some '#')
  else none

end GlyphDump

/-! ## Isolated points -/

def adjCells (point : Point) : List Point :=
  let x := point.1
  let y := point.2
  [(x - 1, y), (x + 1, y), (x - 1, y - 1), (x, y - 1), (x + 1, y - 1), (x - 1, y + 1),
    (x, y + 1), (x + 1, y + 1)]

def checkIsolated (dump : GlyphDump) (point : Point) (excepting : List Point) : Bool :=
  (adjCells point).all fun adj => adj ∈ excepting || dump.bmpData adj ≠ some true

/-- An isolated point, with the directions in which it has to grow. -/
structure Mark where
  x : Int
  y : Int
  sx : Option Int
  sy : Option Int
  deriving DecidableEq, Repr

structure Points where
  otherPoints : List Point
  isolatedPoints : List Mark

/-- The body of the loop over the pixels. -/
def classify (dump : GlyphDump) (points : Points) (point : Point) : Points :=
  let before : Point := (point.1 - 1, point.2)
  if dump.bmpData point ≠ some true then points
  else if checkIsolated dump point [] then
    { points with isolatedPoints := points.isolatedPoints ++ [⟨point.1, point.2, none, none⟩] }
  else if before ∈ points.otherPoints ∧ checkIsolated dump point [before] ∧
      checkIsolated dump before [point] then
    { otherPoints := points.otherPoints.erase before
      isolatedPoints := points.isolatedPoints ++ [⟨point.1, point.2, some (-1), none⟩] }
  else { points with otherPoints := points.otherPoints ++ [point] }

/-- The pixels in the order of the scan, column by column. -/
def scanOrder (dump : GlyphDump) : List Point :=
  (pyRange dump.width).flatMap fun x => (pyRange dump.height).map fun y => (x, y)

def findPoints (dump : GlyphDump) : Points :=
  (scanOrder dump).foldl (classify dump) ⟨[], []⟩

/-! ## Growing -/

/-- `sum(values) / len(values)`. -/
def mean (values : List Int) : Except PyError Rat :=
  if values.length = 0 then .error .zeroDivisionError
  else .ok ((values.sum : Rat) / (values.length : Rat))

/-- The direction in which a point grows along one axis. -/
def direction (forced : Option Int) (value : Int) (isolatedCentroid otherCentroid : Rat) : Int :=
  match forced with
  | some sign => sign
  | none =>
      if (value : Rat) = isolatedCentroid then
        if (value : Rat) < otherCentroid then -1 else 1
      else if (value : Rat) < isolatedCentroid then -1 else 1

/-- Setting some keys of a dictionary to `True`. -/
def setKeys (keys new : List Point) : List Point :=
  new.foldl (fun keys key => if key ∈ keys then keys else keys ++ [key]) keys

/-- The four pixels of a mark that has grown. -/
def block (x y sx sy : Int) : List Point :=
  [(x, y), (x, y + sy), (x + sx, y + sy), (x + sx, y)]

structure Centroids where
  isolated : Rat × Rat
  other : Rat × Rat

def centroids (points : Points) : Except PyError Centroids := do
  let isolatedX ← mean (points.isolatedPoints.map Mark.x)
  let isolatedY ← mean (points.isolatedPoints.map Mark.y)
  let otherX ← mean (points.otherPoints.map Prod.fst)
  let otherY ← mean (points.otherPoints.map Prod.snd)
  .ok ⟨(isolatedX, isolatedY), (otherX, otherY)⟩

/-- The keys of `ijam_bmp_data`, and `hit_left` as a number. -/
structure Grown where
  ijam : List Point
  hitLeft : Int
  deriving DecidableEq

def Mark.growX (centres : Centroids) (mark : Mark) : Int :=
  direction mark.sx mark.x centres.isolated.1 centres.other.1

def Mark.growY (centres : Centroids) (mark : Mark) : Int :=
  direction mark.sy mark.y centres.isolated.2 centres.other.2

/-- The pixels of a mark after its growth. -/
def Mark.grow (centres : Centroids) (mark : Mark) : List Point :=
  block mark.x mark.y (mark.growX centres) (mark.growY centres)

/-- The body of the loop over the isolated points.  The second test sets `hit_left` too. -/
def growMark (width : Int) (centres : Centroids) (grown : Grown) (mark : Mark) : Grown :=
  let x := mark.x
  let sx := mark.growX centres
  let hitLeft :=
    if x ≤ 0 ∨ x + sx ≤ 0 then max (0 - x + 1) (0 - (x + sx) + 1) else grown.hitLeft
  let hitLeft :=
    if x ≥ width - 1 ∨ x + sx ≥ width - 1 then max (x - width + 1) (x + sx - width + 1)
    else hitLeft
  ⟨setKeys grown.ijam (mark.grow centres), hitLeft⟩

def growMarks (width : Int) (points : Points) : Except PyError Grown := do
  let centres ← centroids points
  .ok (points.isolatedPoints.foldl (growMark width centres) ⟨[], 0⟩)

/-! ## Recentring -/

def pyMin (values : List Int) : Except PyError Int :=
  (values.min?.map Except.ok).getD (.error .valueError)

def pyMax (values : List Int) : Except PyError Int :=
  (values.max?.map Except.ok).getD (.error .valueError)

/-- `int(round(value))`, with a half away from zero. -/
def pyRound (value : Rat) : Int :=
  if 0 ≤ value then (value + 1 / 2).floor else -(-value + 1 / 2).floor

structure Recentred where
  ijam : List Point
  hitLeft : Int
  hitRight : Int
  deriving DecidableEq

/-- The body of the loop over the keys. -/
def recentrePoint (width offX : Int) (recentred : Recentred) (key : Point) : Recentred :=
  ⟨setKeys recentred.ijam [(key.1 - offX, key.2)],
    if key.1 - offX ≤ 0 then 0 - (key.1 - offX) + 1 else recentred.hitLeft,
    if key.1 - offX ≥ width then key.1 - offX - width + 1 else recentred.hitRight⟩

def recentre (keyOrder : DictOrder Point) (width : Int) (otherPoints : List Point) (grown : Grown) :
    Except PyError Recentred :=
  if grown.hitLeft ≠ 0 then do
    let minIsoX ← pyMin (grown.ijam.map Prod.fst)
    let maxIsoX ← pyMax (grown.ijam.map Prod.fst)
    let minOthX ← pyMin (otherPoints.map Prod.fst)
    let maxOthX ← pyMax (otherPoints.map Prod.fst)
    let offX := pyRound
      (((maxOthX - minOthX : Int) : Rat) / 2 - ((maxIsoX - minIsoX : Int) : Rat) / 2)
    .ok ((keyOrder.iterate grown.ijam).foldl (recentrePoint width offX) ⟨[], 0, 0⟩)
  else .ok ⟨grown.ijam, grown.hitLeft, 0⟩

/-! ## The new bitmap -/

/-- By how much the bitmap grows at its four sides. -/
structure Expansion where
  sx : Int
  sy : Int
  hdx : Int
  hdy : Int

def expandPoint (width height : Int) (expansion : Expansion) (key : Point) : Expansion where
  sx := if key.1 < 0 then max (-key.1) expansion.sx else expansion.sx
  sy := if key.2 < 0 then max (-key.2) expansion.sy else expansion.sy
  hdx := if key.1 ≥ width then max (key.1 - width + 1) expansion.hdx else expansion.hdx
  hdy := if key.2 ≥ height then max (key.2 - height + 1) expansion.hdy else expansion.hdy

def expand (keyOrder : DictOrder Point) (width height : Int) (ijam : List Point) : Expansion :=
  (keyOrder.iterate ijam).foldl (expandPoint width height) ⟨0, 0, 0, 0⟩

/-- The keys that a point of the body sets. -/
def bodyKeys (expansion : Expansion) (point : Point) : List Point :=
  (point.1 + expansion.hdx, point.2) ::
    if point.1 = 0 then
      (pyRange (expansion.hdx + expansion.sx)).map fun xoff =>
        (point.1 + xoff - expansion.sx, point.2)
    else []

def pixelChar (keys : List Point) (key : Point) : Char :=
  if key ∈ keys then '#' else ' '

/-- The text that is written. -/
def bitmapText (width height sx sy : Int) (keys : List Point) : List Char :=
  (pyRange height).flatMap fun y =>
    ((pyRange width).map fun x => pixelChar keys (x - sx, y - sy)) ++ ['\n']

def rebuild (keyOrder : DictOrder Point) (dump : GlyphDump) (otherPoints : List Point)
    (recentred : Recentred) : GlyphDump :=
  let expansion := expand keyOrder dump.width dump.height recentred.ijam
  let dl := if recentred.hitLeft ≠ 0 then 0 - recentred.hitLeft else 0
  let db := 0
  let keys := setKeys recentred.ijam (otherPoints.flatMap (bodyKeys expansion))
  let width := dump.width + (expansion.sx + expansion.hdx)
  let height := dump.height + (expansion.sy + expansion.hdy)
  { width := width
    height := height
    left := dump.left + (expansion.sx + dl)
    bottom := dump.bottom - (expansion.sy + db)
    advance := dump.advance + (expansion.sx + expansion.hdx)
    text := bitmapText width height expansion.sx expansion.sy keys }

/-- `process_glyph`, which writes a dump or none. -/
def processGlyph (keyOrder : DictOrder Point) (dump : GlyphDump) :
    Except PyError (Option GlyphDump) :=
  let points := findPoints dump
  if (dump.bmpStr.length : Int) ≠ dump.width * dump.height then .error .assertionError
  else if points.isolatedPoints = [] then .ok none
  else do
    let grown ← growMarks dump.width points
    let recentred ← recentre keyOrder dump.width points.otherPoints grown
    .ok (some (rebuild keyOrder dump points.otherPoints recentred))

end FixIjam

end Elbbep
