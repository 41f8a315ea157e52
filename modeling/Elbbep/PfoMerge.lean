import Elbbep.PythonStruct

/-!
# Reading, merging and writing font files

The functions of `fonts/pfo_merge.py`.  A font file has a header, a directory with one
item for each hash value, the chains of the hash table, whose items are a codepoint and
an offset, and the glyphs.
-/

namespace Elbbep

namespace PfoMerge

open PythonStruct

structure Glyph where
  codepoints : List Nat
  data : List UInt8
  deriving DecidableEq, Repr

/-- The glyphs are the items of a dictionary, in the order of iteration. -/
structure Font where
  maxHeight : Nat
  wildcard : Nat
  compressed : Bool
  glyphs : List (Nat × Glyph)
  deriving DecidableEq, Repr

def hashtableDirectorySize : Nat := 255

def hashtableDirectoryItemSize : Nat := 4

def offsetTableMaxSize : Nat := 128

/-- `HASHTABLE_CHAIN_ITEM`: the format `<HH` or `<HL`. -/
inductive ChainItem
  | hh
  | hl
  deriving DecidableEq, Repr

namespace ChainItem

def size : ChainItem → Nat
  | hh => 4
  | hl => 6

def pack (chainItem : ChainItem) (codept offset : Nat) : Except PyError (List UInt8) := do
  let first ← packH codept
  let second ← match chainItem with
    | hh => packH offset
    | hl => packL offset
  .ok (first ++ second)

def unpack : ChainItem → List UInt8 → Except PyError (Nat × Nat)
  | hh, [c0, c1, o0, o1] => .ok (u16 c0 c1, u16 o0 o1)
  | hl, [c0, c1, o0, o1, o2, o3] => .ok (u16 c0 c1, u32 o0 o1 o2 o3)
  | _, _ => .error .structError

end ChainItem

/-! ## Reading -/

/-- What `font_read` takes from the header. -/
structure Header where
  headerSize : Nat
  maxHeight : Nat
  codeptCt : Nat
  wildcard : Nat
  chainItem : ChainItem
  compressed : Bool
  deriving DecidableEq, Repr

/-- The header of a version 2 or version 3 file. -/
def readHeader : List UInt8 → Except PyError Header
  | [] => .error .indexError
  | pfoVer :: rest =>
      if pfoVer = 2 then
        match slice (pfoVer :: rest) 0 8 with
        | [_, maxHeight, c0, c1, w0, w1, _, codeptSz] =>
            if codeptSz = 2 then .ok ⟨8, maxHeight.toNat, u16 c0 c1, u16 w0 w1, .hh, false⟩
            else .error .assertionError
        | _ => .error .structError
      else if pfoVer = 3 then
        match slice (pfoVer :: rest) 0 10 with
        | [_, maxHeight, c0, c1, w0, w1, _, codeptSz, _, features] =>
            if codeptSz = 2 then
              .ok ⟨10, maxHeight.toNat, u16 c0 c1, u16 w0 w1,
                if features &&& 1 = 0 then .hl else .hh, features &&& 2 ≠ 0⟩
            else .error .assertionError
        | _ => .error .structError
      else .error .assertionError

/-- The bytes of a bitmap of `h * w` pixels, padded to words. -/
def bitmapDataSz (h w : Nat) : Nat :=
  ((h * w + 7) / 8 + 3) / 4 * 4

def readGlyphData (pfo : List UInt8) (dataStart : Nat) : Except PyError (List UInt8) :=
  match slice pfo dataStart (dataStart + 2) with
  | [h, w] => .ok (slice pfo dataStart (dataStart + (5 + bitmapDataSz h.toNat w.toNat)))
  | _ => .error .structError

/-- The glyphs are kept by their offsets; a glyph that is known gets one more codepoint. -/
def readChainItem (pfo : List UInt8) (glyphsBase : Nat) (glyphs : List (Nat × Glyph))
    (item : Nat × Nat) : Except PyError (List (Nat × Glyph)) :=
  if (glyphs.lookup item.2).isNone then do
    let glyphData ← readGlyphData pfo (glyphsBase + item.2)
    .ok (glyphs ++ [(item.2, ⟨[item.1], glyphData⟩)])
  else
    .ok (glyphs.map fun entry =>
      if entry.1 = item.2 then (entry.1, ⟨entry.2.codepoints ++ [item.1], entry.2.data⟩)
      else entry)

namespace Header

variable (header : Header)

def tablesBase : Nat :=
  header.headerSize + hashtableDirectorySize * hashtableDirectoryItemSize

def glyphsBase : Nat :=
  header.tablesBase + header.codeptCt * header.chainItem.size

/-- The length of a chain and its offset. -/
def readDirectoryItem (pfo : List UInt8) (directoryIndex : Nat) : Except PyError (Nat × Nat) :=
  let dirAddr := header.headerSize + directoryIndex * hashtableDirectoryItemSize
  match slice pfo dirAddr (dirAddr + hashtableDirectoryItemSize) with
  | [_, tableSize, o0, o1] => .ok (tableSize.toNat, u16 o0 o1)
  | _ => .error .structError

/-- A codepoint and its offset. -/
def readItem (pfo : List UInt8) (offset itemIdx : Nat) : Except PyError (Nat × Nat) :=
  let itemAddr := header.tablesBase + offset + itemIdx * header.chainItem.size
  header.chainItem.unpack (slice pfo itemAddr (itemAddr + header.chainItem.size))

def readChain (pfo : List UInt8) (glyphs : List (Nat × Glyph)) (directoryIndex : Nat) :
    Except PyError (List (Nat × Glyph)) := do
  let (tableSize, offset) ← header.readDirectoryItem pfo directoryIndex
  (List.range tableSize).foldlM (fun glyphs itemIdx => do
    let item ← header.readItem pfo offset itemIdx
    readChainItem pfo header.glyphsBase glyphs item) glyphs

end Header

/-- `font_read`, on the contents of the file. -/
def fontRead (pfo : List UInt8) : Except PyError Font := do
  let header ← readHeader pfo
  let glyphs ← (List.range hashtableDirectorySize).foldlM (header.readChain pfo) []
  .ok ⟨header.maxHeight, header.wildcard, header.compressed, glyphs⟩

/-! ## Writing -/

def packHeader (maxHeight codeptCt wildcard features : Nat) : Except PyError (List UInt8) := do
  let pfoVer ← packB 3
  let maxHeight ← packB maxHeight
  let codeptCt ← packH codeptCt
  let wildcard ← packH wildcard
  let hashtableSz ← packB hashtableDirectorySize
  let codeptSz ← packB 2
  let sSize ← packB 10
  let features ← packB features
  .ok (pfoVer ++ maxHeight ++ codeptCt ++ wildcard ++ hashtableSz ++ codeptSz ++ sSize ++ features)

/-- The codepoints of a glyph get the offset at which its data is added. -/
def addGlyph (state : List (Nat × Nat) × List UInt8) (glyph : Glyph) :
    List (Nat × Nat) × List UInt8 :=
  (state.1 ++ glyph.codepoints.map fun cpt => (cpt, state.2.length), state.2 ++ glyph.data)

/-- The chains and their lengths. -/
structure ChainState where
  chains : Nat → List UInt8
  chainCounts : Nat → Nat

def addToChain (chainItem : ChainItem) (state : ChainState) (pair : Nat × Nat) :
    Except PyError ChainState := do
  let binNo := pair.1 % hashtableDirectorySize
  let packed ← chainItem.pack pair.1 pair.2
  if state.chainCounts binNo + 1 < offsetTableMaxSize then
    .ok ⟨Function.update state.chains binNo (state.chains binNo ++ packed),
      Function.update state.chainCounts binNo (state.chainCounts binNo + 1)⟩
  else .error .assertionError

/-- One item of the hashtable directory, and the offset of the next chain. -/
def addDirectoryItem (state : ChainState) (acc : List UInt8 × Nat) (x : Nat) :
    Except PyError (List UInt8 × Nat) := do
  let hash ← packB x
  let count ← packB (state.chainCounts x)
  let off ← packH acc.2
  .ok (acc.1 ++ (hash ++ count ++ off), acc.2 + (state.chains x).length)

/-- The glyphs in the order of their first codepoints. -/
def Font.sortedGlyphs (font : Font) : List Glyph :=
  (font.glyphs.map Prod.snd).insertionSort fun a b =>
    a.codepoints.headD 0 ≤ b.codepoints.headD 0

def Font.bitmapdataLength (font : Font) : Nat :=
  (font.glyphs.map fun entry => entry.2.data.length).sum

def Font.chainItem (font : Font) : ChainItem :=
  if font.bitmapdataLength < 65535 then .hh else .hl

def Font.features (font : Font) : Nat :=
  (if font.bitmapdataLength < 65535 then 1 else 0) + if font.compressed then 2 else 0

/-- `font_write`, as the contents of the file. -/
def fontWrite (font : Font) : Except PyError (List UInt8) := do
  let codeptCt := (font.glyphs.map fun entry => entry.2.codepoints.length).sum
  let header ← packHeader font.maxHeight codeptCt font.wildcard font.features
  if font.glyphs.any fun entry => entry.2.codepoints.isEmpty then .error .indexError
  else
    let (codepointOffsetPairs, glyphData) := font.sortedGlyphs.foldl addGlyph ([], [0, 0, 0, 0])
    let sortedPairs := codepointOffsetPairs.insertionSort fun a b => a.1 ≤ b.1
    let state ← sortedPairs.foldlM (addToChain font.chainItem) ⟨fun _ => [], fun _ => 0⟩
    let (hashtableData, _) ←
      (List.range hashtableDirectorySize).foldlM (addDirectoryItem state) ([], 0)
    .ok (header ++ hashtableData ++ (List.range hashtableDirectorySize).flatMap state.chains ++
      glyphData)

/-! ## Merging -/

/-- An order in which dictionaries are iterated. -/
structure DictOrder (α : Type) where
  iterate : List α → List α
  perm : ∀ items, (iterate items).Perm items

/-- `items[key] = value`. -/
def setItem (items : List (Nat × Nat)) (key value : Nat) : List (Nat × Nat) :=
  if (items.lookup key).isSome then
    items.map fun item => if item.1 = key then (key, value) else item
  else items ++ [(key, value)]

/-- The `new_glyph` objects, and `font_cpt_map` with the positions of the objects. -/
structure MergeState where
  objects : List Glyph
  fontCptMap : List (Nat × Nat)

/-- A new object without codepoints, to which the codepoints of a glyph are mapped. -/
def mapGlyph (state : MergeState) (glyph : Glyph) : MergeState :=
  ⟨state.objects ++ [⟨[], glyph.data⟩],
    glyph.codepoints.foldl (fun items cpt => setItem items cpt state.objects.length)
      state.fontCptMap⟩

/-- The objects, and `font_glyphs` with the positions of the objects. -/
structure CollectState where
  objects : List Glyph
  fontGlyphs : List (Nat × Nat)

/-- A codepoint is appended to its object, and the object is kept unless an equal one is. -/
def collectGlyph (state : CollectState) (item : Nat × Nat) : CollectState :=
  let objects := state.objects.modify item.2 fun glyph =>
    ⟨glyph.codepoints ++ [item.1], glyph.data⟩
  if state.fontGlyphs.any fun entry => objects[entry.2]? == objects[item.2]? then
    ⟨objects, state.fontGlyphs⟩
  else ⟨objects, setItem state.fontGlyphs item.1 item.2⟩

/-- `merge_fonts`. -/
def mergeFonts (cptOrder : DictOrder (Nat × Nat)) (glyphOrder : DictOrder (Nat × Glyph))
    (font1 font2 : Font) : Except PyError Font :=
  if font1.compressed = font2.compressed then
    let mapped := (font1.glyphs.map Prod.snd ++ font2.glyphs.map Prod.snd).foldl mapGlyph ⟨[], []⟩
    let collected := (cptOrder.iterate mapped.fontCptMap).foldl collectGlyph ⟨mapped.objects, []⟩
    .ok ⟨font1.maxHeight, font1.wildcard, font1.compressed,
      glyphOrder.iterate (collected.fontGlyphs.map fun entry =>
        (entry.1, collected.objects.getD entry.2 ⟨[], []⟩))⟩
  else .error .assertionError

/-- The fonts merged from left to right. -/
def mergeAll (cptOrder : DictOrder (Nat × Nat)) (glyphOrder : DictOrder (Nat × Glyph)) :
    List Font → Except PyError Font
  | [] => .error .indexError
  | font :: fonts => fonts.foldlM (mergeFonts cptOrder glyphOrder) font

end PfoMerge

end Elbbep
