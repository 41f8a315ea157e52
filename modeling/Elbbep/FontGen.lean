import Elbbep.PythonStruct

/-!
# Generating font files

The part of `pebblesdk/fontgen.py` that packs rendered glyphs into a font file.  What
the rasterizer makes of a glyph is a parameter.
-/

namespace Elbbep

namespace FontGen

open PythonStruct

def maxTwoBytesCodepoint : Nat := 0xffff

def wildcardCodepoint : Nat := 0x25AF

def hashTableSize : Nat := 255

def featureOffset16 : Nat := 1

def featureRle4 : Nat := 2

def glyphBufferSizeBytes : Nat := 256

/-- A glyph index of the font face, or `ZERO_WIDTH_GLYPH_INDEX`. -/
inductive GIndex
  | face (gindex : Nat)
  | zeroWidth
  deriving DecidableEq, Repr

/-- A rendered glyph with its metrics, one bit for each pixel. -/
structure RenderedGlyph where
  width : Nat
  height : Nat
  left : Int
  bottom : Int
  advance : Int
  glyphBitmap : List Bool
  bitmap_length : glyphBitmap.length = width * height

/-! ## Compression -/

def rleLen : Nat := 8

/-- The loop that cuts a run into units of at most `RLE_LEN` symbols. -/
def cutRun (name : Bool) : (fuel length : Nat) → List (Bool × Nat)
  | 0, _ => []
  | fuel + 1, length =>
      if length > 0 then
        (name, min length rleLen) :: cutRun name fuel (length - min length rleLen)
      else []

/-- The units of a bitmap, without padding. -/
def rleUnitList (bitmap : List Bool) : List (Bool × Nat) :=
  (bitmap.splitBy (· == ·)).flatMap fun group =>
    cutRun (group.headD false) group.length group.length

def packUnits (first second : Bool × Nat) : UInt8 :=
  UInt8.ofNat (8 * first.1.toNat + (first.2 - 1) + 128 * second.1.toNat + 16 * (second.2 - 1))

/-- Two units for each byte. -/
def packUnitPairs : List (Bool × Nat) → List UInt8
  | first :: second :: units => packUnits first second :: packUnitPairs units
  | _ => []

/-- `compress_glyph_RLE4`: the packed units and their number. -/
def compressGlyphRle4 (bitmap : List Bool) : List UInt8 × Nat :=
  let units := rleUnitList bitmap
  let numUnits := units.length
  let glyphPacked := packUnitPairs (if numUnits % 2 = 1 then units ++ [(false, 1)] else units)
  (glyphPacked ++ List.replicate ((4 - glyphPacked.length % 4) % 4) 0, numUnits)

/-- The variables of `check_decompress_glyph_RLE4`. -/
structure DecompressState where
  bitmap : List Nat
  srcPtr : Nat
  dstPtr : Nat
  out : Nat
  outNumBits : Nat
  unitPair : Nat

/-- One unit of the current pair. -/
def decompressUnit (state : DecompressState) : Except PyError DecompressState :=
  let colour := state.unitPair / 8 % 2
  let length := state.unitPair % 8 + 1
  let out := if colour = 1 then state.out ||| ((2 ^ length - 1) <<< state.outNumBits) else state.out
  let outNumBits := state.outNumBits + length
  let unitPair := state.unitPair / 16
  if outNumBits ≥ 8 then
    if state.dstPtr ≥ state.srcPtr then .error .exception
    else if state.dstPtr ≥ glyphBufferSizeBytes then .error .exception
    else .ok { state with
      bitmap := state.bitmap.set state.dstPtr (out % 256)
      dstPtr := state.dstPtr + 1
      out := out / 256
      outNumBits := outNumBits - 8
      unitPair := unitPair }
  else .ok { state with out := out, outNumBits := outNumBits, unitPair := unitPair }

/-- The units in pairs; the last pair may be a single unit. -/
def decompressUnits : (rleUnits : Nat) → DecompressState → Except PyError DecompressState
  | 0, state => .ok state
  | 1, state =>
      if state.srcPtr ≥ glyphBufferSizeBytes then .error .exception
      else decompressUnit
        { state with unitPair := state.bitmap.getD state.srcPtr 0, srcPtr := state.srcPtr + 1 }
  | rleUnits + 2, state =>
      if state.srcPtr ≥ glyphBufferSizeBytes then .error .exception
      else do
        let state ← decompressUnit
          { state with unitPair := state.bitmap.getD state.srcPtr 0, srcPtr := state.srcPtr + 1 }
        let state ← decompressUnit state
        decompressUnits rleUnits state

/-- `check_decompress_glyph_RLE4`: the glyph can be decompressed in place.  The bits that are
left at the end fit into one more byte. -/
def checkDecompressGlyphRle4 (glyphPacked : List UInt8) (rleUnits : Nat) : Except PyError Unit := do
  let bitmap := List.replicate (glyphBufferSizeBytes - glyphPacked.length) 0 ++
    glyphPacked.map UInt8.toNat
  let state ← decompressUnits rleUnits
    ⟨bitmap, glyphBufferSizeBytes - glyphPacked.length, 5, 0, 0, 0⟩
  if state.outNumBits > 0 ∧ state.dstPtr ≥ glyphBufferSizeBytes then .error .indexError
  else .ok ()

/-! ## Glyphs -/

/-- The bits of a word, the first one least significant. -/
def wordOf : List Bool → Nat
  | [] => 0
  | bit :: bits => bit.toNat + 2 * wordOf bits

/-- The bitmap in words of 32 bits, the last one filled with zeros. -/
def packWords (glyphBitmap : List Bool) : List UInt8 :=
  (List.range ((glyphBitmap.length + 31) / 32)).flatMap fun index =>
    encodeL (wordOf ((glyphBitmap.drop (32 * index)).take 32))

/-- `self.glyph_header`. -/
def packGlyphHeader (width height : Nat) (left bottom advance : Int) :
    Except PyError (List UInt8) := do
  let width ← packB width
  let height ← packB height
  let left ← packSignedB left
  let bottom ← packSignedB bottom
  let advance ← packSignedB advance
  .ok (width ++ height ++ left ++ bottom ++ advance)

/-- The bitmap as it is stored, and what is stored as its height. -/
def packBitmap (rle4 : Bool) (glyph : RenderedGlyph) : Except PyError (List UInt8 × Nat) :=
  if glyph.height ≠ 0 ∧ glyph.width ≠ 0 then
    if rle4 then do
      let (glyphPacked, height) := compressGlyphRle4 glyph.glyphBitmap
      if height > 255 then .error .exception
      else do
        checkDecompressGlyphRle4 glyphPacked height
        .ok (glyphPacked, height)
    else .ok (packWords glyph.glyphBitmap, glyph.height)
  else .ok ([], glyph.height)

/-- The settings of a `Font`. -/
structure Font where
  version : Nat
  maxHeight : Nat
  rle4 : Bool
  shift : Int × Int
  render : Nat → Nat → RenderedGlyph

namespace Font

variable (font : Font)

def glyphBits (codepoint : Nat) : GIndex → Except PyError (List UInt8)
  | .zeroWidth => packGlyphHeader 0 0 0 0 0
  | .face gindex => do
      let glyph := font.render codepoint gindex
      let (glyphPacked, height) ← packBitmap font.rle4 glyph
      let glyphHeader ← packGlyphHeader glyph.width height (glyph.left + font.shift.1)
        (glyph.bottom + font.shift.2) glyph.advance
      .ok (glyphHeader ++ glyphPacked)

/-! ## Tables -/

end Font

/-- What `build_tables` collects while it adds glyphs. -/
structure BuildState where
  glyphTable : List (List UInt8)
  nextOffset : Nat
  glyphIndicesLookup : List (GIndex × Nat)
  glyphEntries : List (Nat × Nat)
  codepointBytes : Nat
  numberOfGlyphs : Nat

def BuildState.start : BuildState :=
  ⟨[[0, 0, 0, 0]], 4, [], [], 2, 0⟩

/-- An entry for a codepoint, after its glyph is in the table. -/
def BuildState.addEntry (state : BuildState) (codepoint offset : Nat) : BuildState :=
  { state with
    glyphEntries := state.glyphEntries ++ [(codepoint, offset)]
    codepointBytes := if codepoint > maxTwoBytesCodepoint then 4 else state.codepointBytes
    numberOfGlyphs := state.numberOfGlyphs + 1 }

namespace Font

variable (font : Font)

/-- `add_glyph`, with the entry that the caller appends. -/
def addGlyph (state : BuildState) (source : Nat × GIndex) : Except PyError BuildState :=
  match state.glyphIndicesLookup.lookup source.2 with
  | none => do
      let glyphBits ← font.glyphBits source.1 source.2
      .ok (BuildState.addEntry
        { state with
          glyphTable := state.glyphTable ++ [glyphBits]
          nextOffset := state.nextOffset + glyphBits.length
          glyphIndicesLookup := state.glyphIndicesLookup ++ [(source.2, state.nextOffset)] }
        source.1 state.nextOffset)
  | some offset => .ok (state.addEntry source.1 offset)

end Font

/-- One entry of an offset table. -/
def packEntry (codepointBytes offsetSizeBytes : Nat) (entry : Nat × Nat) :
    Except PyError (List UInt8) := do
  let codepoint ← if codepointBytes = 4 then packL entry.1 else packH entry.1
  let offset ← if offsetSizeBytes = 4 then packL entry.2 else packH entry.2
  .ok (codepoint ++ offset)

structure OffsetTables where
  offsetTables : Nat → List UInt8
  bucketSizes : Nat → Nat

/-- A bucket that is too large is reported, but the entry is added. -/
def addToOffsetTable (codepointBytes offsetSizeBytes : Nat) (tables : OffsetTables)
    (entry : Nat × Nat) : Except PyError OffsetTables := do
  let glyphHash := entry.1 % hashTableSize
  let packed ← packEntry codepointBytes offsetSizeBytes entry
  .ok ⟨Function.update tables.offsetTables glyphHash (tables.offsetTables glyphHash ++ packed),
    Function.update tables.bucketSizes glyphHash (tables.bucketSizes glyphHash + 1)⟩

/-- One item of `hash_table`, and the offset of the next bucket. -/
def addToHashTable (entrySize : Nat) (bucketSizes : Nat → Nat) (acc : List UInt8 × Nat)
    (i : Nat) : Except PyError (List UInt8 × Nat) := do
  let hash ← packB i
  let bucketSize ← packB (bucketSizes i)
  let offset ← packH acc.2
  .ok (acc.1 ++ (hash ++ bucketSize ++ offset), acc.2 + bucketSizes i * entrySize)

/-- `fontinfo_bits`. -/
def fontinfoBits (version maxHeight numberOfGlyphs codepointBytes features : Nat) :
    Except PyError (List UInt8) := do
  let versionByte ← packB version
  let maxHeight ← packB maxHeight
  let numberOfGlyphs ← packH numberOfGlyphs
  let wildcard ← packH wildcardCodepoint
  let tableSize ← packB hashTableSize
  let codepointSize ← packB codepointBytes
  let fields := versionByte ++ maxHeight ++ numberOfGlyphs ++ wildcard ++ tableSize ++ codepointSize
  if version = 2 then .ok fields
  else do
    let size ← packB 10
    let features ← packB features
    .ok (fields ++ size ++ features)

namespace Font

variable (font : Font)

/-- `build_tables` and `bitstring`, for the codepoints with their glyph indices in the order in
which they are added. -/
def bitstring (sources : List (Nat × GIndex)) : Except PyError (List UInt8) := do
  let state ← sources.foldlM font.addGlyph .start
  let glyphDataBytes := (state.glyphTable.map List.length).sum
  let offset16 : Bool := font.version = 3 ∧ glyphDataBytes < 65536
  let features := (if font.rle4 then featureRle4 else 0) + if offset16 then featureOffset16 else 0
  let offsetSizeBytes := if offset16 then 2 else 4
  let sortedEntries := state.glyphEntries.insertionSort fun a b => a.1 ≤ b.1
  let tables ← sortedEntries.foldlM (addToOffsetTable state.codepointBytes offsetSizeBytes)
    ⟨fun _ => [], fun _ => 0⟩
  let (hashTable, _) ← (List.range hashTableSize).foldlM
    (addToHashTable (offsetSizeBytes + state.codepointBytes) tables.bucketSizes) ([], 0)
  let fontinfo ← fontinfoBits font.version font.maxHeight state.numberOfGlyphs
    state.codepointBytes features
  .ok (fontinfo ++ hashTable ++ (List.range hashTableSize).flatMap tables.offsetTables ++
    state.glyphTable.flatten)

end Font

end FontGen

end Elbbep
