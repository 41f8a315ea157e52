import Elbbep.GlyphBitmaps
import Elbbep.NonJoiningLetters

/-!
# Composing fonts

`fonts/compose.py` adds Arabic and Hebrew letters to the fonts of the system.  For each member of
a template it lets `fontgen.py` generate a font file, and it merges the files behind the original.
What the rasterizer makes of a glyph and what characters a face has are parameters.  A tool that
fails leaves what it has written so far, so the programs here keep their state when they fail.
-/

namespace Elbbep

open PythonStruct PfoMerge FailingPrograms

/-! ## Directories -/

abbrev File := List Char × List UInt8

/-- A directory, as its files with their contents. -/
abbrev Directory := Folder (List Char) (List UInt8)

namespace Directory

/-- The pattern `start*`, where the start is not empty. -/
def startsWith (start name : List Char) : Bool :=
  start.isPrefixOf name

/-- The pattern `*part*`, which leaves out hidden files. -/
def hasPart (part name : List Char) : Bool :=
  name.head? ≠ some '.' && decide (part <:+: name)

/-- The pattern `*ending`. -/
def endsWith (ending name : List Char) : Bool :=
  name.head? ≠ some '.' && ending.isSuffixOf name

end Directory

namespace FontGen

def minCodepoint : Nat := 0x20

def maxExtendedCodepoint : Nat := 0x10ffff

def ellipsisCodepoint : Nat := 0x2026

def maxGlyphs : Nat := 256

/-! ## The codepoints of a font -/

/-- What the command line says about the codepoints: a map, a list, a filter, and codepoints
without width.  A list that is not given stands for all codepoints. -/
structure Selection where
  codepointsMap : List (Nat × Nat)
  codepoints : Option (List Nat)
  regex : Option (Nat → Bool)
  zeroWidthCodepts : List Nat
  maxGlyphs : Nat

namespace Selection

variable (selection : Selection)

def codepointIsInSubset (codepoint : Nat) : Bool :=
  if codepoint ≠ wildcardCodepoint ∧ codepoint ≠ ellipsisCodepoint then
    (selection.regex.elim true fun isMatch => isMatch codepoint) &&
      selection.codepoints.elim (minCodepoint ≤ codepoint && codepoint < maxExtendedCodepoint)
        fun codepoints => codepoint ∈ codepoints
  else true

/-- The loop over the characters of the face, up to the limit.  The source compares a character
with the wildcard as objects, which two numbers of that size never are. -/
def faceSources : (numberOfGlyphs : Nat) → (chars : List (Nat × Nat)) → List (Nat × GIndex)
  | _, [] => []
  | numberOfGlyphs, (codepoint, gindex) :: chars =>
      if numberOfGlyphs > selection.maxGlyphs then []
      else if selection.codepointIsInSubset codepoint then
        (codepoint, .face gindex) :: faceSources (numberOfGlyphs + 1) chars
      else faceSources numberOfGlyphs chars

/-- The codepoints that `build_tables` adds, in this order, with their glyphs. -/
def sources (chars : List (Nat × Nat)) : List (Nat × GIndex) :=
  let first := (wildcardCodepoint, .face 0) ::
    selection.zeroWidthCodepts.map fun codept => (codept, .zeroWidth)
  if selection.codepointsMap.isEmpty then first ++ selection.faceSources first.length chars
  else first ++ (selection.codepointsMap.insertionSort fun a b => a.1 ≤ b.1).map fun item =>
    (item.1, .face item.2)

end Selection

end FontGen

/-! ## The shaper -/

/-- `{v: k for k, v in selected_glyphs.items()}`, as `text_shaper.py` writes it. -/
def selectedCodeptItems (selectedGlyphs : List (Nat × Nat)) : List (Nat × Nat) :=
  selectedGlyphs.foldl (fun items item => insertGlyph items item.2 item.1) []

/-- The map of the shaper for a forms table. -/
def shaperMap (shapeAlone : Char → Nat) (packed : PackState) : List (Nat × Nat) :=
  selectedCodeptItems
    (supplementSelectedGlyphs shapeAlone packed.selectedGlyphs supplementalAlphabet)

/-- What `hb-shape` gives for a font file. -/
structure HbFont where
  hbShape : List Char → Except PyError (List Nat)
  kashidaGlyph : Nat
  shapeAlone : Char → Nat

/-- The two files for `fontgen.py`: the glyphs of the codepoints, and their labels. -/
structure ShaperResult where
  mapTf : List (Nat × Nat)
  labelsTf : List (Nat × String)
  deriving DecidableEq, Repr

/-- `fonts/text_shaper.py`: the tables for the runtime, and the files for `fontgen.py`. -/
def textShaper (unicodedataName : Char → Option String) (font : HbFont) (subset : Subset) :
    Except PyError (ShaperTables × ShaperResult) := do
  let characterForms ←
    generateForms font.hbShape font.kashidaGlyph (shapedAlphabet subset) ligatures
  let packed ← packLut unicodedataName characterForms
  let shapableRanges ← contiguousRanges packed.dirtiedCodepts
  .ok (writeLut packed.lutData packed.ligData shapableRanges,
    ⟨shaperMap font.shapeAlone packed, packed.labels⟩)

namespace FontCompose

/-! ## Templates -/

/-- The files of the fonts.  Hebrew letters come from the fonts of the Arabic letters. -/
inductive TtfPath
  | tahoma
  | tahomaBold
  | timesNewRomanBold
  deriving DecidableEq, Repr

structure MergeMember where
  ttfPath : TtfPath
  size : Nat
  withShaper : Bool
  codepts : Option (List Nat)
  threshold : Option Nat
  fixIjam : Bool
  deriving DecidableEq, Repr

/-- `HEBREW_CODEPT_LIST`. -/
def hebrewCodeptList : List Nat :=
  [0x5c0, 0x5c3, 0x5c6, 0x20aa] ++ List.range' 0x5d0 (0x5f5 - 0x5d0)

/-- A member with the letters of the shaper. -/
def arabic (ttfPath : TtfPath) (size : Nat) : MergeMember :=
  ⟨ttfPath, size, true, none, none, false⟩

def hebrew (ttfPath : TtfPath) (size : Nat) : MergeMember :=
  ⟨ttfPath, size, false, some hebrewCodeptList, none, false⟩

def MergeMember.ijam (member : MergeMember) : MergeMember :=
  { member with fixIjam := true }

def MergeMember.cutoff (member : MergeMember) (threshold : Nat) : MergeMember :=
  { member with threshold := some threshold }

def notificationSetSm : List MergeMember :=
  [arabic .tahoma 15, hebrew .tahoma 15]

def notificationSetSmBold : List MergeMember :=
  [(arabic .tahomaBold 14).ijam, hebrew .tahomaBold 16]

def notificationSetMed : List MergeMember :=
  [((arabic .tahoma 19).cutoff 100).ijam, (hebrew .tahoma 19).cutoff 100]

def notificationSetMedBold : List MergeMember :=
  [(arabic .tahomaBold 19).ijam, hebrew .tahomaBold 19]

def notificationSetLg : List MergeMember :=
  [arabic .tahoma 24, hebrew .tahoma 26]

def notificationSetLgBold : List MergeMember :=
  [arabic .tahomaBold 24, hebrew .tahomaBold 26]

def notificationSizeMap : List (String × List MergeMember × List MergeMember) :=
  [("small", notificationSetSm, notificationSetSmBold),
    ("medium", notificationSetMed, notificationSetMedBold),
    ("large", notificationSetLg, notificationSetLgBold)]

/-- `TEMPLATES`, for the sets of the notification font. -/
def templates (notification notificationBold : List MergeMember) :
    List ((Nat × Option String) × List MergeMember) :=
  [((9, none), [arabic .tahoma 9, hebrew .tahoma 9]),
    ((14, none), [arabic .tahoma 13, hebrew .tahoma 14]),
    ((14, some "BOLD"), [(arabic .tahomaBold 13).ijam, hebrew .tahomaBold 14]),
    ((18, none), notificationSetSm),
    ((18, some "BOLD"), notificationSetSmBold),
    ((21, some "CONDENSED"), [(arabic .tahoma 20).ijam, hebrew .tahoma 21]),
    ((24, none), notification),
    ((24, some "BOLD"), notificationBold),
    ((28, none), notificationSetLg),
    ((28, some "BOLD"), notificationSetLgBold),
    ((28, some "BOLD_SERIF"), [arabic .timesNewRomanBold 24, hebrew .timesNewRomanBold 26]),
    ((30, some "BLACK"), [arabic .tahomaBold 28, hebrew .tahomaBold 30]),
    ((42, some "LIGHT"), [arabic .tahoma 38, hebrew .tahoma 42]),
    ((42, some "BOLD"), [arabic .tahomaBold 38, hebrew .tahomaBold 42])]

/-- `select_template`. -/
def selectTemplate (size : Nat) (variant : Option String) (sizeShiftKey : String) :
    Except PyError (List MergeMember) :=
  match notificationSizeMap.lookup sizeShiftKey with
  | none => .error .keyError
  | some (notification, notificationBold) =>
      match (templates notification notificationBold).lookup (size, variant) with
      | none => .error .keyError
      | some template => .ok template

/-! ## Members -/

/-- The faces of the font files: their characters in order, and what a member of a template gets
for a glyph. -/
structure Faces where
  chars : TtfPath → List (Nat × Nat)
  render : MergeMember → Nat → Nat → FontGen.RenderedGlyph

/-- The compression of the original, for which `compose_font` looks into its header. -/
def isCompressed (pfo : List UInt8) : Bool :=
  pfo.head? = some 3 && (pfo.getD 9 0 &&& 2 ≠ 0)

/-- The settings with which `fontgen.py` is called for a member. -/
def memberFont (faces : Faces) (compressed : Bool) (size : Nat) (member : MergeMember) :
    FontGen.Font where
  version := 3
  maxHeight := member.size
  rle4 := compressed
  shift := (0, (size : Int) - member.size)
  render := faces.render member

/-- The codepoints with which `fontgen.py` is called for a member. -/
def memberSelection (codepointsMap : List (Nat × Nat)) (member : MergeMember) :
    FontGen.Selection where
  codepointsMap := if member.withShaper then codepointsMap else []
  codepoints := member.codepts
  regex := none
  zeroWidthCodepts := zeroWidthCodepoints
  maxGlyphs := FontGen.maxGlyphs

def memberSources (faces : Faces) (codepointsMap : List (Nat × Nat)) (member : MergeMember) :
    List (Nat × FontGen.GIndex) :=
  (memberSelection codepointsMap member).sources (faces.chars member.ttfPath)

/-- `pfo_merge.py`, on the contents of the files. -/
def pfoMerge (cptOrder : PfoMerge.DictOrder (Nat × Nat))
    (glyphOrder : PfoMerge.DictOrder (Nat × PfoMerge.Glyph)) (pfos : List (List UInt8)) :
    Except PyError (List UInt8) := do
  let fonts ← pfos.mapM PfoMerge.fontRead
  let merged ← PfoMerge.mergeAll cptOrder glyphOrder fonts
  PfoMerge.fontWrite merged

/-! ## Names of fonts -/

/-- The characters that `int` strips. -/
def isSpace (c : Char) : Bool :=
  c ∈ [' ', '\t', '\n', '\r', '\x0b', '\x0c']

def parseDigits (digits : List Char) : Option Nat :=
  if digits ≠ [] ∧ digits.all Char.isDigit then
    some (Nat.ofDigits 10 (digits.reverse.map fun c => c.toNat - '0'.toNat))
  else none

/-- `int(text)`. -/
def parseInt (text : List Char) : Option Int :=
  match (text.dropWhile isSpace).rdropWhile isSpace with
  | '-' :: digits => (parseDigits digits).map fun value => -value
  | '+' :: digits => (parseDigits digits).map Int.ofNat
  | digits => (parseDigits digits).map Int.ofNat

/-- The last parts of the name: the size, and a variant when there are more than three. -/
def lastParts (inputSplit : List (List Char)) : List Char × Option (List Char) :=
  match inputSplit.reverse with
  | variant :: size :: _ :: _ :: _ => (size, some variant)
  | size :: _ => (size, none)
  | [] => ([], none)

/-- The number among the last parts, which may be in the place of the variant. -/
def sizeAndVariant : List Char × Option (List Char) → Except PyError (Int × Option (List Char))
  | (size, variant) =>
      match parseInt size, variant with
      | some number, variant => .ok (number, variant)
      | none, none => .error .exception
      | none, some variant =>
          match parseInt variant with
          | some number => .ok (number, some size)
          | none => .error .valueError

/-- The size and the variant in the name of a font. -/
def fontKey (inputPfoName : List Char) : Except PyError (Int × Option (List Char)) := do
  let (size, variant) ←
    sizeAndVariant (lastParts ((inputPfoName.takeWhile (· ≠ '.')).splitOn '_'))
  if "SERIF".toList <:+: inputPfoName then
    match variant with
    | some variant => .ok (size, some (variant ++ "_SERIF".toList))
    | none => .error .exception
  else .ok (size, variant)

/-- The template for a size, which has none if it is negative. -/
def templateFor (key : Int × Option (List Char)) (sizeShiftKey : String) :
    Except PyError (List MergeMember) :=
  if 0 ≤ key.1 then selectTemplate key.1.toNat (key.2.map String.ofList) sizeShiftKey
  else .error .keyError

/-! ## One font -/

/-- What the machine that composes fonts brings along: the orders in which it lists directories and
dictionaries, the names of characters in both versions of the language, the shaper, and the fonts. -/
structure Tools where
  listing : DictOrder File
  bitmapListing : DictOrder (FontGen.BitmapName × FontGen.Bitmap)
  keyOrder : DictOrder FixIjam.Point
  cptOrder : DictOrder (Nat × Nat)
  glyphOrder : DictOrder (Nat × Glyph)
  unicodedataName : Char → Option String
  codepointName : Nat → Option (List Char)
  hbFont : TtfPath → HbFont
  faces : Faces

/-- The directory under `fonts/bitmaps` for a member, by the name of its font and its size. -/
abbrev BitmapKey := TtfPath × Nat

def MergeMember.bitmapKey (member : MergeMember) : BitmapKey :=
  (member.ttfPath, member.size)

/-- The variables of the script, the tables under `runtime/`, the bitmaps, and the directory it
writes. -/
structure ComposeState where
  shaperResult : Option ShaperResult
  lut : Option ShaperTables
  bitmaps : BitmapKey → FontGen.BitmapDir
  outDir : Directory

def ComposeState.storeBitmaps (member : MergeMember) (dir : FontGen.BitmapDir)
    (state : ComposeState) : ComposeState :=
  { state with bitmaps := Function.update state.bitmaps member.bitmapKey dir }

/-- The header of the original. -/
def readCompressed : List UInt8 → Except PyError Bool
  | [] => .error .exception
  | pfoVer :: rest =>
      if pfoVer = 3 then
        match rest[8]? with
        | some features => .ok (features &&& 2 ≠ 0)
        | none => .error .exception
      else .ok false

variable (tools : Tools)

/-- The files of the shaper for a member.  The shaper is run once, on the font of the first member
with it. -/
def memberShaper (subset : Subset) (member : MergeMember) :
    EStateM PyError ComposeState ShaperResult := do
  if member.withShaper then
    match (← get).shaperResult with
    | some shaperResult => pure shaperResult
    | none =>
        match textShaper tools.unicodedataName (tools.hbFont member.ttfPath) subset with
        | .error _ => throw .exception
        | .ok (tables, shaperResult) =>
            modify fun state =>
              { state with shaperResult := some shaperResult, lut := some tables }
            pure shaperResult
  else pure ⟨[], []⟩

/-- The names under which `fontgen.py` dumps the glyphs of a member. -/
def memberNames (shaperResult : ShaperResult) : Nat → Nat → FontGen.BitmapName :=
  FontGen.bitmapName tools.codepointName shaperResult.labelsTf

/-- "We must dump the glyphs first": if there are no dumps yet, a run of `fontgen.py` that may fail
makes them.  Then `fix_ijam.py` thickens the dumps, and must not fail. -/
def prepareBitmaps (font : FontGen.Font) (names : Nat → Nat → FontGen.BitmapName)
    (sources : List (Nat × FontGen.GIndex)) : EStateM PyError FontGen.BitmapDir Unit := do
  if (← get).dump.isEmpty then
    let _ ← attempt (font.fontgen names sources)
  failingWith .exception (FixIjam.main tools.keyOrder tools.bitmapListing)

/-- The file of a member, if `fontgen.py` does not fail. -/
def memberPfo (compressed : Bool) (size : Nat) (member : MergeMember)
    (shaperResult : ShaperResult) : EStateM PyError ComposeState (Option (List UInt8)) := do
  let font := memberFont tools.faces compressed size member
  let sources := memberSources tools.faces shaperResult.mapTf member
  if member.fixIjam then
    let names := memberNames tools shaperResult
    focus (fun state => state.bitmaps member.bitmapKey) (.storeBitmaps member) do
      prepareBitmaps tools font names sources
      attempt (font.fontgen names sources)
  else pure (font.bitstring sources).toOption

/-- The loop over the members, which ends when `fontgen.py` fails. -/
def composeMembers (subset : Subset) (compressed : Bool) (size : Nat) :
    List MergeMember → EStateM PyError ComposeState (Option (List (List UInt8)))
  | [] => pure (some [])
  | member :: template => do
      let shaperResult ← memberShaper tools subset member
      match ← memberPfo tools compressed size member shaperResult with
      | none => pure none
      | some pfo => do
          let pfos ← composeMembers subset compressed size template
          pure (pfos.map fun pfos => pfo :: pfos)

/-- `compose_font`, on a file.  There is no output without a template, nor when a member fails. -/
def composeFont (subset : Subset) (sizeShiftKey : String) (file : File) :
    EStateM PyError ComposeState Unit := do
  let key ← liftExcept (fontKey file.1)
  match templateFor key sizeShiftKey with
  | .error _ => pure ()
  | .ok template => do
      let compressed ← liftExcept (readCompressed file.2)
      match ← composeMembers tools subset compressed key.1.toNat template with
      | none => pure ()
      | some members =>
          match pfoMerge tools.cptOrder tools.glyphOrder (file.2 :: members) with
          | .error _ => throw .exception
          | .ok pfo => modify fun state => { state with outDir := state.outDir.write file.1 pfo }

/-! ## All fonts -/

def blacklist : List (List Char) :=
  ["NUMBERS".toList, "SUBSET".toList, "EMOJI".toList]

/-- The blacklist is compared with the whole path. -/
def blacklisted (inDir name : List Char) : Bool :=
  blacklist.any fun word => decide (word <:+: inDir ++ '/' :: name)

/-- The loop at the end of `compose.py`. -/
def main (inDir : List Char) (inFiles : Directory) (subset : Subset) (sizeShiftKey : String) :
    EStateM PyError ComposeState Unit :=
  (inFiles.glob tools.listing (Directory.endsWith ".pfo".toList)).forM fun file =>
    if blacklisted inDir file.1 then pure () else composeFont tools subset sizeShiftKey file

end FontCompose

end Elbbep
