import Elbbep.FindSystemFonts
import Elbbep.FontCompose
import Elbbep.PatchTools
import Elbbep.ResourcePack

/-!
# The generator

`generator.py` drives the other tools: it unpacks the resources of a firmware, copies its fonts
under their names, composes new fonts, packs them as language packs, and patches the firmware.
Directories of earlier runs are used again, and so are the bitmaps of the glyphs and the tables that
the shaper has written last.  What comes from the network, the compiler and the fonts is a parameter.
-/

namespace Elbbep

open PythonStruct PfoMerge FailingPrograms

/-! ## Copying the system fonts -/

namespace FindSystemFonts

/-- `text.replace(part, "")`, where some characters of a part are still to be skipped. -/
def removeAll (part : List Char) : (skip : Nat) → List Char → List Char
  | _, [] => []
  | skip + 1, _ :: rest => removeAll part skip rest
  | 0, c :: rest =>
      if part.isPrefixOf (c :: rest) then removeAll part (part.length - 1) rest
      else c :: removeAll part 0 rest

/-- A name of the firmware, one character for each byte. -/
def nameChars (name : List UInt8) : List Char :=
  name.map fun b => Char.ofNat b.toNat

/-- `"%03d_%s.pfo"`, without the beginning of the name. -/
def pfoName (key : Nat) (name : List UInt8) : List Char :=
  ResourcePack.resourceName key ++
    '_' :: (removeAll "RESOURCE_ID_".toList 0 (nameChars name) ++ ".pfo".toList)

/-- The body of the loop over the table.  A name with a slash has no directory. -/
def copyFont (listing : DictOrder File) (unpacked : Directory) (item : List UInt8 × Nat) :
    EStateM PyError Directory Unit :=
  if "FALLBACK_INTERNAL".toList <:+: nameChars item.1 then pure ()
  else
    match (unpacked.glob listing
      (Directory.startsWith (ResourcePack.resourceName item.2))).head? with
    | none => throw .indexError
    | some src =>
        if '/' ∈ pfoName item.2 item.1 then throw .exception
        else modify fun dest => dest.write (pfoName item.2 item.1) src.2

/-- The whole script, which copies the fonts of the image into a directory. -/
def main (order : DictOrder (List UInt8 × Nat)) (listing : DictOrder File)
    (targetBin : List UInt8) (unpacked : Directory) : EStateM PyError Directory Unit := do
  let result ← liftExcept (extractSystemFontResourceIds targetBin)
  (order.iterate result).forM (copyFont listing unpacked)

end FindSystemFonts

/-! ## The generator -/

namespace Generator

open ResourcePack FontCompose PatchTools

inductive HwRev
  | ev2_4
  | v1_5
  | v2_0
  | snowyDvt
  | snowyS3
  | spalding
  | silk
  deriving DecidableEq, Repr

def HwRev.name : HwRev → String
  | .ev2_4 => "ev2_4"
  | .v1_5 => "v1_5"
  | .v2_0 => "v2_0"
  | .snowyDvt => "snowy_dvt"
  | .snowyS3 => "snowy_s3"
  | .spalding => "spalding"
  | .silk => "silk"

def hwRevPlatformMap : HwRev → Platform
  | .ev2_4 | .v1_5 | .v2_0 => .aplite
  | .snowyDvt | .snowyS3 => .basalt
  | .spalding => .chalk
  | .silk => .diorite

def platformSubsetMap : Platform → Subset
  | .aplite => .arabic
  | .basalt | .chalk | .diorite => .full

def sizeShiftKeys : List String :=
  ["small", "medium", "large"]

/-- The version and the revision by which `cache_path` tells firmwares apart. -/
abbrev FwKey := List Char × HwRev

/-- The files of a firmware. -/
structure Firmware where
  tintinFw : List UInt8
  systemResources : List UInt8

/-- What the generator is run on: the firmwares that can be downloaded, the libraries of the SDKs,
the translation that `msgfmt` makes, and `patch.py` with the compiler, for the tables that stand
under `runtime/`. -/
structure Machine extends Tools where
  itemOrder : DictOrder (List UInt8 × Nat)
  firmware : FwKey → Firmware
  libpebble : List Char → Platform → List UInt8
  translation : List UInt8
  patch : Platform → List UInt8 → List UInt8 → ShaperTables → Except PyError (List UInt8)

/-- What earlier runs have left in the directory of a firmware. -/
structure FwDir where
  systemResources : Option Directory
  systemFonts : Option Directory
  generatedFonts : String → Option Directory
  patchedBin : Option (List UInt8)

def FwDir.empty : FwDir :=
  ⟨none, none, fun _ => none, none⟩

/-- What earlier runs have left: the directories of the firmwares, the tables under `runtime/`, and
the bitmaps under `fonts/`. -/
structure Cache where
  fwDirs : FwKey → FwDir
  lut : Option ShaperTables
  bitmaps : BitmapKey → FontGen.BitmapDir

def Cache.empty : Cache :=
  ⟨fun _ => .empty, none, fun _ => .empty⟩

def Cache.modifyDir (cache : Cache) (key : FwKey) (change : FwDir → FwDir) : Cache :=
  { cache with fwDirs := Function.update cache.fwDirs key (change (cache.fwDirs key)) }

/-- A script that is called.  What it has written stays when it fails. -/
def subprocess {σ : Type} (script : EStateM PyError σ Unit) (start : Cache → σ)
    (store : σ → Cache → Cache) (written : σ → Directory) : EStateM PyError Cache Directory :=
  fun cache =>
    match script (start cache) with
    | .ok _ state => .ok (written state) (store state cache)
    | .error _ state => .error .exception (store state cache)

variable (machine : Machine)

/-- `unpack_resources`, which reads the table before it writes a file. -/
def unpackSystemResources (key : FwKey) : EStateM PyError Cache Directory :=
  cached (fun cache => (cache.fwDirs key).systemResources) do
    modify fun cache => cache.modifyDir key fun dir => { dir with systemResources := some [] }
    let files ← liftExcept (unpackResources (machine.firmware key).systemResources)
    let unpacked := files.foldl (fun dir file => Folder.write dir file.1 file.2) []
    modify fun cache => cache.modifyDir key fun dir => { dir with systemResources := some unpacked }
    pure unpacked

/-- `extract_fonts`. -/
def extractFonts (key : FwKey) : EStateM PyError Cache Directory := do
  let resources ← unpackSystemResources machine key
  cached (fun cache => (cache.fwDirs key).systemFonts) <|
    subprocess
      (FindSystemFonts.main machine.itemOrder machine.listing
        (machine.firmware key).tintinFw resources)
      (fun _ => [])
      (fun files cache => cache.modifyDir key fun dir => { dir with systemFonts := some files })
      id

/-- The directory of the fonts. -/
def systemFontsPath (key : FwKey) : List Char :=
  "cache/unpacked-firmware/".toList ++ key.1 ++ '-' :: key.2.name.toList ++ "/system_fonts".toList

def FwDir.addFonts (dir : FwDir) (sizeShiftKey : String) (files : Directory) : FwDir :=
  { dir with generatedFonts := Function.update dir.generatedFonts sizeShiftKey files }

/-- What `compose.py` leaves in the cache. -/
def storeFonts (key : FwKey) (sizeShiftKey : String) (state : ComposeState) (cache : Cache) :
    Cache :=
  { cache.modifyDir key fun dir => dir.addFonts sizeShiftKey state.outDir with
    lut := state.lut
    bitmaps := state.bitmaps }

/-- `generate_fonts`. -/
def generateFonts (key : FwKey) (originalFonts : Directory) (subset : Subset)
    (sizeShiftKey : String) : EStateM PyError Cache Directory :=
  cached (fun cache => (cache.fwDirs key).generatedFonts sizeShiftKey) <|
    subprocess
      (FontCompose.main machine.toTools (systemFontsPath key) originalFonts subset sizeShiftKey)
      (fun cache => ⟨none, cache.lut, cache.bitmaps, []⟩)
      (storeFonts key sizeShiftKey)
      ComposeState.outDir

def fontSeq : List (List Char) :=
  ["GOTHIC_14".toList, "GOTHIC_14_BOLD".toList, "GOTHIC_18".toList, "GOTHIC_18_BOLD".toList,
    "GOTHIC_24".toList, "GOTHIC_24_BOLD".toList, "GOTHIC_28".toList, "GOTHIC_28_BOLD".toList,
    "BITHAM_30_BLACK".toList, "BITHAM_42_BOLD".toList, "BITHAM_42_LIGHT".toList,
    "BITHAM_42_MEDIUM_NUMBERS".toList, "BITHAM_34_MEDIUM_NUMBERS".toList,
    "BITHAM_34_LIGHT_SUBSET".toList, "BITHAM_18_LIGHT_SUBSET".toList,
    "ROBOTO_CONDENSED_21".toList, "ROBOTO_BOLD_SUBSET_49".toList, "DROID_SERIF_28_BOLD".toList]

/-- The file for a font of the language pack, which is the first one with its name as a part. -/
def fontMatch (listing : DictOrder File) (fontsDir : Directory) (font : List Char) :
    Option (List UInt8) :=
  (fontsDir.glob listing (Directory.hasPart font)).head?.map Prod.snd

/-- The resources of a language pack, with the ids that are determined for them. -/
def langpackResmap (fontsDir : Directory) : List (Nat × Option (List UInt8)) :=
  (1, some machine.translation) :: fontSeq.zipIdx.map fun item =>
    (item.2 + 2, fontMatch machine.listing fontsDir item.1)

/-- `generate_langpack`. -/
def generateLangpack (fontsDir : Directory) : Except PyError (List UInt8) :=
  packResources (langpackResmap machine fontsDir) 256

/-- `patch.py` with the tables that it finds. -/
def runPatch (key : FwKey) (tables : ShaperTables) : EStateM PyError Cache (List UInt8) :=
  match machine.patch (hwRevPlatformMap key.2) (machine.firmware key).tintinFw
    (machine.libpebble key.1 (hwRevPlatformMap key.2)) tables with
  | .error _ => throw .exception
  | .ok patched => do
      modify fun cache => cache.modifyDir key fun dir => { dir with patchedBin := some patched }
      pure patched

/-- `patch_firmware`, which fails without the tables of the shaper. -/
def patchFirmware (key : FwKey) : EStateM PyError Cache (List UInt8) :=
  cached (fun cache => (cache.fwDirs key).patchedBin) do
    match (← get).lut with
    | some tables => runPatch machine key tables
    | none => throw .exception

/-! ### Packing the firmware -/

/-- `text.index(part)`, where `none` stands for its `ValueError`. -/
def indexOf (part : List UInt8) : List UInt8 → Option Nat
  | [] => if part = [] then some 0 else none
  | b :: rest =>
      if part.isPrefixOf (b :: rest) then some 0 else (indexOf part rest).map (· + 1)

/-- `text.encode("ascii")`. -/
def encodeAscii (text : List Char) : Except PyError (List UInt8) :=
  if text.all fun c => c.toNat < 128 then .ok (text.map fun c => UInt8.ofNat c.toNat)
  else .error .valueError

/-- `b"-RTL-r%d" % rev_no`. -/
def revString (revNo : Int) : List UInt8 :=
  ("-RTL-r" ++ toString revNo).toList.map fun c => UInt8.ofNat c.toNat

/-- `tag_version`. -/
def tagVersion (fwVer : List Char) (revNo : Int) (fwBin : List UInt8) :
    Except PyError (List UInt8) := do
  let fwVer ← encodeAscii fwVer
  match indexOf fwVer fwBin with
  | none => .error .valueError
  | some verStringLoc =>
      let newVerString := fwVer ++ revString revNo
      .ok (fwBin.take verStringLoc ++ newVerString ++
        fwBin.drop (verStringLoc + newVerString.length))

/-- The firmware package: the image, and what the manifest says about it. -/
structure Pbz where
  tintinFw : List UInt8
  size : Nat
  crc : Nat
  deriving DecidableEq, Repr

/-- `pack_firmware`. -/
def packFirmware (fwVer : List Char) (revNo : Int) (newBin : List UInt8) : Except PyError Pbz := do
  let fwBin ← tagVersion fwVer revNo newBin
  .ok ⟨fwBin, fwBin.length, crc32 fwBin⟩

/-! ### A run -/

/-- The arguments of a run: the revision of the hardware, the number of the revision, and how many
language packs are asked for.  The version is what the server says is the latest. -/
structure Args where
  hwRev : HwRev
  revNo : Int
  outPbls : Nat
  version : List Char
  deriving DecidableEq, Repr

def Args.key (args : Args) : FwKey :=
  (args.version, args.hwRev)

/-- The files that a run writes. -/
structure Output where
  pbls : List (List UInt8)
  pbz : Pbz
  deriving DecidableEq, Repr

/-- The language pack for a size. -/
def generatePbl (key : FwKey) (sizeShiftKey : String) : EStateM PyError Cache (List UInt8) := do
  let originalFonts ← extractFonts machine key
  let fontsDir ← generateFonts machine key originalFonts
    (platformSubsetMap (hwRevPlatformMap key.2)) sizeShiftKey
  liftExcept (generateLangpack machine fontsDir)

/-- The language packs that are asked for. -/
def generatePbls (args : Args) : EStateM PyError Cache (List (List UInt8)) :=
  if args.outPbls = 0 then pure []
  else if args.outPbls = sizeShiftKeys.length then
    sizeShiftKeys.mapM (generatePbl machine args.key)
  else throw .assertionError

/-- The whole script. -/
def generate (args : Args) : EStateM PyError Cache Output := do
  let pbls ← generatePbls machine args
  let patched ← patchFirmware machine args.key
  let pbz ← liftExcept (packFirmware args.version args.revNo patched)
  pure ⟨pbls, pbz⟩

/-- The outcome of a run. -/
def outcome (args : Args) (cache : Cache) : Except PyError Output :=
  match generate machine args cache with
  | .ok output _ => .ok output
  | .error e _ => .error e

/-- What a run leaves behind. -/
def leaves (args : Args) (cache : Cache) : Cache :=
  match generate machine args cache with
  | .ok _ cache => cache
  | .error _ cache => cache

/-- The outcomes of runs, one after the other. -/
def outcomes (cache : Cache) : List Args → List (Except PyError Output)
  | [] => []
  | args :: history =>
      outcome machine args cache :: outcomes (leaves machine args cache) history

end Generator

end Elbbep
