import Elbbep.DrawnText
import Elbbep.LanguagePacks

/-!
# What the generator writes

The main results about runs of the generator, and a small firmware on which it can be run.
-/

namespace Elbbep

open PythonStruct PfoMerge FailingPrograms

/-! ## Runs that succeed -/

/-- A font is copied when its resource is found. -/
theorem FindSystemFonts.copyFont_found {listing : DictOrder File} {unpacked : Directory}
    {item : List UInt8 × Nat} (kept : ¬ "FALLBACK_INTERNAL".toList <:+: nameChars item.1)
    {src : File} (found : (unpacked.glob listing
      (Directory.startsWith (ResourcePack.resourceName item.2))).head? = some src)
    (noSlash : '/' ∉ pfoName item.2 item.1) (dir : Directory) :
    copyFont listing unpacked item dir = .ok () (dir.write (pfoName item.2 item.1) src.2) := by
  unfold copyFont
  rw [if_neg kept]
  simp only [found]
  rw [if_neg noSlash]
  rfl

namespace ResourcePack

/-- Resources that are not too many and not too large can be packed. -/
theorem packResources_ok {resmap : List (Nat × Option (List UInt8))} {limit : Nat}
    (few : resmap.length ≤ limit) (limitSmall : limit < 4294967296)
    (ids : ∀ resource ∈ resmap, resource.1 < 4294967296)
    (total : (resmap.map fun resource => (contentsOf resource).length).sum < 4294967296) :
    ∃ pbpack, packResources resmap limit = .ok pbpack := by
  have perm := sortResources_perm resmap
  obtain ⟨contents, state, run, packed⟩ := Packed.start.foldlM_addResource
    (fun resource member => ids resource (perm.mem_iff.mp member))
    (show (([] ++ sortResources resmap).map fun resource => (contentsOf resource).length).sum <
        4294967296 by
      rw [List.nil_append, (perm.map _).sum_eq]
      exact total)
  exact ⟨_, (packResources_eq run packed limitSmall).trans (if_pos few)⟩

end ResourcePack

namespace Generator

open ResourcePack FontCompose

/-! ## A small firmware -/

def sampleName : List UInt8 :=
  "RESOURCE_ID_GOTHIC_09".toList.map fun c => UInt8.ofNat c.toNat

/-- A table with one font, its name, and the version. -/
def sampleImage : List UInt8 :=
  encodeL 0x08004008 ++ encodeL 1 ++ sampleName ++
    "\x00v3.8\x00".toList.map fun c => UInt8.ofNat c.toNat

/-- A pack with one resource. -/
def singlePbpack (contents : List UInt8) : List UInt8 :=
  pbpackFile maxResources [entryOf [contents] (1, some contents)] [contents]

/-- A firmware with this font.  The patch appends code to the image. -/
def sampleMachine (input : List UInt8) : Machine where
  toTools := pixelTools
  itemOrder := ⟨id, fun _ => .refl _⟩
  firmware := fun _ => ⟨sampleImage, singlePbpack input⟩
  libpebble := fun _ _ => []
  translation := []
  patch := fun _ targetBin _ _ => .ok (targetBin ++ [0x70, 0x47])

def sampleArgs : Args :=
  ⟨.v2_0, 7, 3, "v3.8".toList⟩

def samplePfoName : List Char :=
  "001_GOTHIC_09.pfo".toList

theorem unpackResources_single {contents : List UInt8} (short : contents.length < 4294967296) :
    unpackResources (singlePbpack contents) = .ok [(resourceName 1, contents)] := by
  have fits : (entryOf [contents] (1, some contents)).Fits :=
    entryOf_fits (show 1 < 4294967296 by norm_num)
      (show (contents ++ []).length < 4294967296 by rwa [List.append_nil]) short
  have few : [(1, some contents)].length ≤ maxResources := by
    rw [List.length_singleton, maxResources]
    norm_num
  have whole := @unpackResources_pbpackFile [(1, some contents)] [contents] few
    (List.forall_mem_singleton.mpr fits)
    (List.forall_mem_singleton.mpr (List.mem_singleton_self contents))
  rw [List.map_singleton, List.map_singleton] at whole
  exact whole

theorem extract_sample :
    FindSystemFonts.extractSystemFontResourceIds sampleImage = .ok [(sampleName, 1)] := by
  decide +kernel

theorem pfoName_sample : FindSystemFonts.pfoName 1 sampleName = samplePfoName := by
  decide +kernel

theorem findSystemFonts_sample (input : List UInt8) :
    FindSystemFonts.main (sampleMachine input).itemOrder (sampleMachine input).listing sampleImage
      [(resourceName 1, input)] [] = .ok () [(samplePfoName, input)] := by
  have kept : ¬ "FALLBACK_INTERNAL".toList <:+: FindSystemFonts.nameChars sampleName := by
    decide +kernel
  have noSlash : '/' ∉ FindSystemFonts.pfoName 1 sampleName := by decide +kernel
  have found (listing : DictOrder File) : (Folder.glob listing
      (Directory.startsWith (resourceName 1)) [(resourceName 1, input)]).head? =
        some (resourceName 1, input) := by
    have itself : Directory.startsWith (resourceName 1) (resourceName 1) = true := by
      rw [Directory.startsWith, List.isPrefixOf_iff_prefix]
    rw [Folder.glob_singleton, if_pos itself, List.head?_cons]
  have copied := @FindSystemFonts.copyFont_found (sampleMachine input).listing
    [(resourceName 1, input)] (sampleName, 1) kept (resourceName 1, input)
    (found (sampleMachine input).listing) noSlash []
  rw [Folder.write_nil, pfoName_sample] at copied
  refine bind_eq_ok.mpr ⟨[(sampleName, 1)], [], liftExcept_eq_ok.mpr ⟨extract_sample, rfl⟩, ?_⟩
  exact bind_eq_ok.mpr ⟨(), [(samplePfoName, input)], copied, rfl⟩

/-- The font has no place in a language pack. -/
theorem langpackResmap_sample (input pfo : List UInt8) :
    langpackResmap (sampleMachine input) [(samplePfoName, pfo)] =
      (1, some []) :: fontSeq.zipIdx.map fun item => (item.2 + 2, none) := by
  have parts : ∀ font ∈ fontSeq, Directory.hasPart font samplePfoName = false := by decide +kernel
  rw [langpackResmap]
  refine congrArg _ (List.map_congr_left fun item member => ?_)
  rw [fontMatch, Folder.glob_singleton, parts _ (List.fst_mem_of_mem_zipIdx member)]
  rfl

theorem generateLangpack_sample (input pfo : List UInt8) :
    ∃ pbl, generateLangpack (sampleMachine input) [(samplePfoName, pfo)] = .ok pbl := by
  rw [generateLangpack, langpackResmap_sample]
  exact packResources_ok (by decide) (by decide) (by decide) (by decide)

def sampleKey : FwKey :=
  ("v3.8".toList, .v2_0)

/-- The steps before the fonts are composed. -/
theorem extractFonts_sample {input : List UInt8} (short : input.length < 4294967296) :
    ∃ after, extractFonts (sampleMachine input) sampleKey .empty =
        .ok [(samplePfoName, input)] after ∧
      (after.fwDirs sampleKey).generatedFonts = (fun _ => none) ∧
      (after.fwDirs sampleKey).patchedBin = none := by
  have unpack : unpackSystemResources (sampleMachine input) sampleKey .empty =
      .ok [(resourceName 1, input)] (Cache.empty.modifyDir sampleKey fun dir =>
        { dir with systemResources := some [(resourceName 1, input)] }) := by
    rw [unpackSystemResources]
    refine (cached_of_none rfl _).trans ?_
    refine bind_eq_ok.mpr ⟨(), _, rfl, ?_⟩
    refine bind_eq_ok.mpr ⟨_, _, liftExcept_eq_ok.mpr ⟨unpackResources_single short, rfl⟩, ?_⟩
    refine bind_eq_ok.mpr ⟨(), _, rfl, ?_⟩
    refine pure_eq_ok.mpr ⟨rfl, ?_⟩
    simp [Cache.modifyDir, Folder.write_nil]
  refine ⟨(Cache.empty.modifyDir sampleKey fun dir =>
      { dir with systemResources := some [(resourceName 1, input)] }).modifyDir sampleKey fun dir =>
      { dir with systemFonts := some [(samplePfoName, input)] },
    bind_eq_ok.mpr ⟨_, _, unpack, ?_⟩, ?_, ?_⟩
  · refine (cached_of_none ?_ _).trans (subprocess_of_ok (findSystemFonts_sample input))
    rw [Cache.modifyDir_self]
    rfl
  · rw [Cache.modifyDir_self, Cache.modifyDir_self]
    rfl
  · rw [Cache.modifyDir_self, Cache.modifyDir_self]
    rfl

/-- What the sample needs of a font: it is composed whatever tables and bitmaps there are. -/
structure SampleFont (input : List UInt8) (tables : ShaperTables) (shaperResult : ShaperResult) :
    Prop where
  short : input.length < 4294967296
  composed : ∀ sizeShiftKey ∈ sizeShiftKeys, ∀ lut bitmaps, ∃ pfo after,
    composeFont pixelTools .arabic sizeShiftKey (samplePfoName, input) ⟨none, lut, bitmaps, []⟩ =
      .ok () ⟨some shaperResult, some tables, after, [(samplePfoName, pfo)]⟩

namespace SampleFont

variable {input : List UInt8} {tables : ShaperTables} {shaperResult : ShaperResult}

theorem main (sample : SampleFont input tables shaperResult) {sizeShiftKey : String}
    (known : sizeShiftKey ∈ sizeShiftKeys) (lut : Option ShaperTables)
    (bitmaps : BitmapKey → FontGen.BitmapDir) :
    ∃ pfo state, FontCompose.main pixelTools (systemFontsPath sampleKey) [(samplePfoName, input)]
        .arabic sizeShiftKey ⟨none, lut, bitmaps, []⟩ = .ok () state ∧
      state.lut = some tables ∧ state.outDir = [(samplePfoName, pfo)] := by
  have isPfo : Directory.endsWith ".pfo".toList samplePfoName = true := by decide +kernel
  have allowed : ¬ blacklisted (systemFontsPath sampleKey) samplePfoName = true := by
    decide +kernel
  obtain ⟨pfo, after, run⟩ := sample.composed sizeShiftKey known lut bitmaps
  refine ⟨pfo, ⟨some shaperResult, some tables, after, [(samplePfoName, pfo)]⟩, ?_, rfl, rfl⟩
  rw [FontCompose.main, Folder.glob_singleton, if_pos isPfo]
  refine bind_eq_ok.mpr ⟨(), _, ?_, rfl⟩
  simp only [if_neg allowed]
  exact run

/-- A language pack is made and stored. -/
theorem generatePbl (sample : SampleFont input tables shaperResult) {sizeShiftKey : String}
    (known : sizeShiftKey ∈ sizeShiftKeys) {cache between : Cache}
    (extracts : extractFonts (sampleMachine input) sampleKey cache =
      .ok [(samplePfoName, input)] between)
    (missing : (between.fwDirs sampleKey).generatedFonts sizeShiftKey = none) :
    ∃ pbl state, Generator.generatePbl (sampleMachine input) sampleKey sizeShiftKey cache =
        .ok pbl (storeFonts sampleKey sizeShiftKey state between) ∧
      state.lut = some tables := by
  obtain ⟨pfo, state, run, lut, outDir⟩ := sample.main known between.lut between.bitmaps
  obtain ⟨pbl, packed⟩ := generateLangpack_sample input pfo
  rw [← outDir] at packed
  refine ⟨pbl, state, bind_eq_ok.mpr ⟨_, _, extracts, ?_⟩, lut⟩
  have subset : platformSubsetMap (hwRevPlatformMap sampleKey.2) = .arabic := rfl
  rw [subset]
  have stored : generateFonts (sampleMachine input) sampleKey [(samplePfoName, input)] .arabic
      sizeShiftKey between = .ok state.outDir (storeFonts sampleKey sizeShiftKey state between) := by
    have tools : (sampleMachine input).toTools = pixelTools := rfl
    simp only [generateFonts, cached, missing]
    rw [tools]
    exact subprocess_of_ok run
  exact bind_eq_ok.mpr ⟨_, _, stored, liftExcept_eq_ok.mpr ⟨packed, rfl⟩⟩

theorem mapM_three_ok {ε σ α β : Type} {body : α → EStateM ε σ β} {a b c : α} {x y z : β}
    {s t u v : σ} (first : body a s = .ok x t) (second : body b t = .ok y u)
    (third : body c u = .ok z v) : [a, b, c].mapM body s = .ok [x, y, z] v := by
  rw [List.mapM_cons, List.mapM_cons, List.mapM_cons, List.mapM_nil]
  refine bind_eq_ok.mpr ⟨x, t, first, bind_eq_ok.mpr ⟨[y, z], v, ?_, rfl⟩⟩
  refine bind_eq_ok.mpr ⟨y, u, second, bind_eq_ok.mpr ⟨[z], v, ?_, rfl⟩⟩
  exact bind_eq_ok.mpr ⟨z, v, third, bind_eq_ok.mpr ⟨[], v, rfl, rfl⟩⟩

/-- All language packs are made, and the tables are there afterwards. -/
theorem generatePbls (sample : SampleFont input tables shaperResult) :
    ∃ pbls after, sizeShiftKeys.mapM (Generator.generatePbl (sampleMachine input) sampleKey)
        .empty = .ok pbls after ∧
      after.lut = some tables ∧ (after.fwDirs sampleKey).patchedBin = none := by
  obtain ⟨extracted, extracts, noFonts, noPatch⟩ := extractFonts_sample sample.short
  have again := (extractFonts_memoized (sampleMachine input) sampleKey _ _ _ extracts).2
  have noSmall := congrFun noFonts "small"
  have noMedium := congrFun noFonts "medium"
  have noLarge := congrFun noFonts "large"
  obtain ⟨small, smallState, smallRun, -⟩ := sample.generatePbl
    (show "small" ∈ sizeShiftKeys by decide) extracts noSmall
  have smallLe := storeFonts_le noSmall smallState
  have noMedium := storeFonts_missing (show "medium" ≠ "small" by decide) noMedium smallState
  have noLarge := storeFonts_missing (show "large" ≠ "small" by decide) noLarge smallState
  obtain ⟨medium, mediumState, mediumRun, -⟩ := sample.generatePbl
    (show "medium" ∈ sizeShiftKeys by decide) (again _ smallLe) noMedium
  have mediumLe := smallLe.trans _ _ _ _ (storeFonts_le noMedium mediumState)
  have noLarge := storeFonts_missing (show "large" ≠ "medium" by decide) noLarge mediumState
  obtain ⟨large, largeState, largeRun, lut⟩ := sample.generatePbl
    (show "large" ∈ sizeShiftKeys by decide) (again _ mediumLe) noLarge
  refine ⟨_, _, mapM_three_ok smallRun mediumRun largeRun, lut, ?_⟩
  rw [storeFonts_patchedBin, storeFonts_patchedBin, storeFonts_patchedBin]
  exact noPatch

theorem tagVersion_sample (revNo : Int) :
    ∃ fwBin, tagVersion "v3.8".toList revNo (sampleImage ++ [0x70, 0x47]) = .ok fwBin := by
  have ver : encodeAscii "v3.8".toList =
      .ok ("v3.8".toList.map fun c => UInt8.ofNat c.toNat) := by
    decide +kernel
  have found : indexOf ("v3.8".toList.map fun c => UInt8.ofNat c.toNat)
      (sampleImage ++ [0x70, 0x47]) = some 30 := by
    decide +kernel
  simp only [tagVersion, ver, bind, Except.bind, found]
  exact ⟨_, rfl⟩

/-- A run in an empty checkout completes. -/
theorem outcome (sample : SampleFont input tables shaperResult) (revNo : Int) :
    ∃ output, Generator.outcome (sampleMachine input) ⟨.v2_0, revNo, 3, "v3.8".toList⟩ .empty =
      .ok output := by
  obtain ⟨pbls, after, pblsRun, present, noPatch⟩ := sample.generatePbls
  obtain ⟨fwBin, tagRun⟩ := tagVersion_sample revNo
  have patchRun : patchFirmware (sampleMachine input) sampleKey after =
      .ok (sampleImage ++ [0x70, 0x47]) (after.modifyDir sampleKey fun dir =>
        { dir with patchedBin := some (sampleImage ++ [0x70, 0x47]) }) := by
    simp only [patchFirmware, cached, noPatch]
    refine bind_eq_ok.mpr ⟨after, after, rfl, ?_⟩
    simp only [present]
    rfl
  have built : ∃ later, build (sampleMachine input) sampleKey .empty =
      .ok (pbls, sampleImage ++ [0x70, 0x47]) later :=
    ⟨_, bind_eq_ok.mpr ⟨pbls, after, pblsRun, bind_eq_ok.mpr ⟨_, _, patchRun, rfl⟩⟩⟩
  obtain ⟨later, built⟩ := built
  have packRun : packFirmware "v3.8".toList revNo (sampleImage ++ [0x70, 0x47]) =
      .ok ⟨fwBin, fwBin.length, crc32 fwBin⟩ := by
    simp only [packFirmware, tagRun, bind, Except.bind]
  exact ⟨⟨pbls, ⟨fwBin, fwBin.length, crc32 fwBin⟩⟩, outcome_eq_ok.mpr
    ⟨_, (generate_eq_ok rfl).mpr ⟨_, built, packRun⟩⟩⟩

end SampleFont

section Sample

variable {shaperResult : ShaperResult} (shapes : ∀ ttfPath, textShaper pixelTools.unicodedataName
  (pixelTools.hbFont ttfPath) .arabic = .ok (sampleTables, shaperResult))

include shapes

/-- The sample font will do. -/
theorem sampleFont_pixel : SampleFont pixelInput sampleTables shaperResult := by
  refine ⟨?_, fun sizeShiftKey known lut bitmaps => ?_⟩
  · unfold pixelInput
    decide +kernel
  · have chosen : templateFor (9, none) sizeShiftKey =
        .ok [arabic .tahoma 9, hebrew .tahoma 9] := by
      simp only [sizeShiftKeys, List.mem_cons, List.not_mem_nil, or_false] at known
      rcases known with rfl | rfl | rfl <;> rfl
    have key : fontKey samplePfoName = .ok (9, none) := by decide +kernel
    obtain ⟨read, wellFormed, room, plain⟩ := pixelOriginal_ok
    have map := shaperMap_of_textShaper (shapes .tahoma)
    have packs : ∀ member ∈ [arabic .tahoma 9, hebrew .tahoma 9],
        (memberFont (collectedFaces pixelTools shaperResult bitmaps) (isCompressed pixelInput) 9
          member).Packs (memberSources pixelTools.faces shaperResult.mapTf member) := by
      rw [List.forall_mem_cons, List.forall_mem_singleton, memberFont_plain rfl,
        memberFont_plain rfl]
      exact ⟨pixel_packs rfl (by norm_num) rfl _, pixel_packs rfl (by norm_num) rfl _⟩
    obtain ⟨_, _, output, pair, run, -⟩ := @composedPfo_ok
      (collectedFaces pixelTools shaperResult bitmaps) _ pixelTools.cptOrder pixelTools.glyphOrder _
      _ read wellFormed room map.nonempty map.distinct map.inside pixelFaces_charmap 9 none
      sizeShiftKey [arabic .tahoma 9, hebrew .tahoma 9] (templateFor_ok chosen) packs
    have prepared : prepareMember pixelTools .arabic (isCompressed pixelInput) 9
        (arabic .tahoma 9) ⟨none, lut, bitmaps, []⟩ =
          .ok shaperResult ⟨some shaperResult, some sampleTables, bitmaps, []⟩ :=
      bind_eq_ok.mpr ⟨_, _, (memberShaper_iff rfl).mpr (Or.inr ⟨rfl, _, shapes .tahoma, rfl⟩), rfl⟩
    obtain ⟨after, composeRun⟩ := @composeFont_prepared pixelTools .arabic _ _ _ _ sizeShiftKey
      (samplePfoName, pixelInput) _ key _ read chosen _ prepared _ run
    exact ⟨output, after, composeRun⟩

/-- All fonts of the sample have one mapping. -/
theorem oneMapping_pixel : OneMapping pixelTools .arabic shaperResult := by
  refine ⟨fun ttfPath tables other run => ?_, ?_⟩
  · have made := Except.ok.inj ((shapes ttfPath).symm.trans run)
    exact (congrArg Prod.snd made).symm
  · intro key sizeShiftKey template chosen member inTemplate ijam compressed
    have offsets : ∀ sets ∈ notificationSizeMap, ∀ entry ∈ templates sets.2.1 sets.2.2,
        ∀ member ∈ entry.2, member.fixIjam = true → member.size ≤ entry.1.1 ∧
          entry.1.1 < member.size + 16 := by
      decide
    obtain ⟨sets, inMap, inTemplates⟩ := selectTemplate_mem (templateFor_ok chosen)
    obtain ⟨atLeast, near⟩ : member.size ≤ key.1.toNat ∧ key.1.toNat < member.size + 16 :=
      offsets sets inMap _ inTemplates member inTemplate ijam
    refine @pixel_packs (memberFont pixelTools.faces compressed key.1.toNat member) rfl
      (key.1.toNat - member.size) (by omega) ?_ _
    rw [Nat.cast_sub atLeast]
    rfl

end Sample

/-! ## Many runs -/

/-- "They must have the same glyph mapping, so we only generate the LUT once": where all runs shape
the same letters with one mapping, runs that complete in an empty checkout give the same files one
after the other, in any order and for any revisions, as each of them alone. -/
theorem outcomes_fresh {machine : Machine} {subset : Subset} {shaperResult : ShaperResult}
    (mapping : OneMapping machine.toTools subset shaperResult) {history : List Args}
    (platforms : ∀ args ∈ history, platformSubsetMap (hwRevPlatformMap args.hwRev) = subset)
    (completes : ∀ args ∈ history, ∃ output, outcome machine args .empty = .ok output) :
    outcomes machine .empty history = history.map fun args => outcome machine args .empty :=
  (Cache.Ready.empty machine shaperResult).outcomes_eq mapping platforms completes

theorem outcomes_fresh_sample :
    (∃ output, outcome (sampleMachine pixelInput) sampleArgs .empty = .ok output) ∧
      outcomes (sampleMachine pixelInput) .empty [sampleArgs, { sampleArgs with revNo := 8 }] =
        [outcome (sampleMachine pixelInput) sampleArgs .empty,
          outcome (sampleMachine pixelInput) { sampleArgs with revNo := 8 } .empty] := by
  obtain ⟨shaperResult, shapes⟩ := textShaper_sample
  have sample := sampleFont_pixel shapes
  refine ⟨sample.outcome 7, @outcomes_fresh (sampleMachine pixelInput) .arabic shaperResult
    (oneMapping_pixel shapes) _ ?_ ?_⟩
  · rw [List.forall_mem_cons, List.forall_mem_singleton]
    exact ⟨rfl, rfl⟩
  · rw [List.forall_mem_cons, List.forall_mem_singleton]
    exact ⟨sample.outcome 7, sample.outcome 8⟩

/-! ## One map for all fonts -/

/-- The language packs and the firmware package of a run belong together: the fonts of all packs are
composed from the fonts of the firmware with the map of one run of the shaper, and the image is patched
with the tables of that run. -/
def Coherent (machine : Machine) (args : Args) (output : Output) : Prop :=
  ∃ fonts ttfPath tables shaperResult patched, SystemFonts machine args.key fonts ∧
    textShaper machine.unicodedataName (machine.hbFont ttfPath)
      (platformSubsetMap (hwRevPlatformMap args.hwRev)) = .ok (tables, shaperResult) ∧
    machine.patch (hwRevPlatformMap args.hwRev) (machine.firmware args.key).tintinFw
      (machine.libpebble args.version (hwRevPlatformMap args.hwRev)) tables = .ok patched ∧
    packFirmware args.version args.revNo patched = .ok output.pbz ∧
    List.Forall₂ (fun sizeShiftKey pbl =>
      LanguagePack machine args.key sizeShiftKey fonts shaperResult pbl) sizeShiftKeys output.pbls

theorem coherent_of_outcome {machine : Machine} {args : Args} {shaperResult : ShaperResult}
    (mapping : OneMapping machine.toTools (platformSubsetMap (hwRevPlatformMap args.hwRev))
      shaperResult) {output : Output} (fresh : outcome machine args .empty = .ok output) :
    Coherent machine args output := by
  obtain ⟨after, run⟩ := outcome_eq_ok.mp fresh
  obtain ⟨patched, built, packRun⟩ := (generate_eq_ok (generate_outPbls run)).mp run
  obtain ⟨fonts, ttfPath, tables, system, shapes, patch, packs⟩ :=
    @build_ok machine args.key shaperResult mapping _ _ _ built
  exact ⟨fonts, ttfPath, tables, shaperResult, patched, system, shapes, patch, packRun, packs⟩

/-- Whatever runs with the same letters and the same mapping have gone before, the files of every
run belong together. -/
theorem outcomes_coherent {machine : Machine} {subset : Subset} {shaperResult : ShaperResult}
    (mapping : OneMapping machine.toTools subset shaperResult) {history : List Args}
    (platforms : ∀ args ∈ history, platformSubsetMap (hwRevPlatformMap args.hwRev) = subset)
    (completes : ∀ args ∈ history, ∃ output, outcome machine args .empty = .ok output) :
    List.Forall₂ (fun args result => ∃ output, result = .ok output ∧ Coherent machine args output)
      history (outcomes machine .empty history) := by
  rw [(Cache.Ready.empty machine shaperResult).outcomes_eq mapping platforms completes,
    List.forall₂_map_right_iff, List.forall₂_same]
  intro args member
  obtain ⟨output, fresh⟩ := completes args member
  have shared : OneMapping machine.toTools (platformSubsetMap (hwRevPlatformMap args.hwRev))
      shaperResult := by
    rw [platforms args member]
    exact mapping
  exact ⟨output, fresh, coherent_of_outcome shared fresh⟩

theorem outcomes_coherent_sample :
    ∃ output, outcomes (sampleMachine pixelInput) .empty [sampleArgs] = [.ok output] ∧
      Coherent (sampleMachine pixelInput) sampleArgs output := by
  obtain ⟨shaperResult, shapes⟩ := textShaper_sample
  have runs := @outcomes_coherent (sampleMachine pixelInput) .arabic shaperResult
    (oneMapping_pixel shapes) [sampleArgs] (List.forall_mem_singleton.mpr rfl)
    (List.forall_mem_singleton.mpr ((sampleFont_pixel shapes).outcome 7))
  obtain ⟨result, rest, ⟨output, rfl, coherent⟩, nothing, same⟩ :=
    List.forall₂_cons_left_iff.mp runs
  obtain rfl := List.forall₂_nil_left_iff.mp nothing
  exact ⟨output, same, coherent⟩

end Generator

end Elbbep
