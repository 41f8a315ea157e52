import Elbbep.FinishedBitmaps
import Elbbep.Generator

/-!
# The generator over many runs

Runs of the generator share the directories of firmwares, the tables under `runtime/` and the
bitmaps under `fonts/`.  As long as all runs shape the same letters with one mapping, a run that
would complete in an empty checkout gives the same files after any runs that would do so too: the
directory of its firmware is untouched or finished, the tables are written again before they are
compiled, and the bitmaps are those that it would make itself.
-/

namespace Elbbep

open PythonStruct PfoMerge FailingPrograms

/-! ## Composing with other tables and bitmaps around -/

namespace FontCompose

/-- Two states that differ in tables which the first one lacks, and in the bitmaps that are
finished. -/
structure ComposeState.Alike (tools : Tools) (shaperResult : ShaperResult)
    (state other : ComposeState) : Prop where
  result : state.shaperResult = other.shaperResult
  known : ∀ found, state.shaperResult = some found → found = shaperResult
  lut : state.lut = none ∨ state.lut = other.lut
  bitmaps : AllSettled tools shaperResult state.bitmaps
  otherBitmaps : AllSettled tools shaperResult other.bitmaps
  outDir : state.outDir = other.outDir

variable {tools : Tools} {subset : Subset} {shaperResult : ShaperResult}
  (mapping : OneMapping tools subset shaperResult)

include mapping

theorem Shaped.same {ttfPath : TtfPath} {state after : ComposeState} {made : ShaperResult}
    (known : ∀ found, state.shaperResult = some found → found = shaperResult)
    (shaped : Shaped tools subset ttfPath state made after) : made = shaperResult := by
  rcases shaped with ⟨present, -⟩ | ⟨-, tables, run, -⟩
  · exact known made present
  · exact mapping.same ttfPath tables made run

theorem memberShaper_alike (member : MergeMember) :
    Simulates (ComposeState.Alike tools shaperResult) (memberShaper tools subset member)
      (memberShaper tools subset member) := by
  intro state other alike made after run
  cases withShaper : member.withShaper with
  | false =>
      rw [memberShaper_without withShaper] at run ⊢
      cases run
      exact ⟨other, rfl, alike⟩
  | true =>
      rw [memberShaper_iff withShaper] at run
      obtain rfl := Shaped.same mapping alike.known run
      rcases run with ⟨present, rfl⟩ | ⟨missing, tables, shapes, rfl⟩
      · exact ⟨other, (memberShaper_iff withShaper).mpr
          (Or.inl ⟨alike.result.symm.trans present, rfl⟩), alike⟩
      · refine ⟨_, (memberShaper_iff withShaper).mpr
          (Or.inr ⟨alike.result.symm.trans missing, tables, shapes, rfl⟩), rfl, ?_, Or.inr rfl,
          alike.bitmaps, alike.otherBitmaps, alike.outDir⟩
        exact fun found same => (Option.some.inj same).symm

theorem memberPfo_alike {key : Int × Option (List Char)} {sizeShiftKey : String}
    {template : List MergeMember} (chosen : templateFor key sizeShiftKey = .ok template)
    {member : MergeMember} (inTemplate : member ∈ template) (compressed : Bool)
    {made : ShaperResult} (same : member.fixIjam = true → made = shaperResult) :
    Simulates (ComposeState.Alike tools shaperResult)
      (memberPfo tools compressed key.1.toNat member made)
      (memberPfo tools compressed key.1.toNat member made) := by
  intro state other alike pfo after run
  cases ijam : member.fixIjam with
  | false =>
      rw [memberPfo_plain ijam] at run ⊢
      cases run
      exact ⟨other, rfl, alike⟩
  | true =>
      obtain rfl := same ijam
      have thick := mem_thickMembers chosen inTemplate ijam
      have packs := mapping.packs key sizeShiftKey template chosen member inTemplate ijam compressed
      obtain ⟨thickens, pfoEq, rfl⟩ :=
        (memberPfo_settled packs ijam (alike.bitmaps.settled thick)).mp run
      have again := (memberPfo_settled packs ijam (alike.otherBitmaps.settled thick)).mpr
        ⟨thickens, pfoEq, rfl⟩
      exact ⟨_, again, alike.result, alike.known, alike.lut, alike.bitmaps.store thick,
        alike.otherBitmaps.store thick, alike.outDir⟩

theorem composeMembers_alike {key : Int × Option (List Char)} {sizeShiftKey : String}
    {template : List MergeMember} (chosen : templateFor key sizeShiftKey = .ok template)
    (compressed : Bool) {members : List MergeMember}
    (inTemplate : ∀ member ∈ members, member ∈ template) :
    Simulates (ComposeState.Alike tools shaperResult)
      (composeMembers tools subset compressed key.1.toNat members)
      (composeMembers tools subset compressed key.1.toNat members) := by
  induction members with
  | nil => exact Simulates.pure (some [])
  | cons member members ih =>
      rw [List.forall_mem_cons] at inTemplate
      refine Simulates.bind_of (memberShaper_alike mapping member)
        (show ∀ _ _ made _, _ → _ → (member.fixIjam = true → made = shaperResult) from ?_)
        fun made same => ?_
      · intro state other made after alike run ijam
        have thick := mem_thickMembers chosen inTemplate.1 ijam
        exact Shaped.same mapping alike.known
          ((memberShaper_iff (thickMembers_withShaper member thick)).mp run)
      refine (memberPfo_alike mapping chosen inTemplate.1 compressed same).bind fun pfo => ?_
      split
      next => exact Simulates.pure none
      next => exact (ih inTemplate.2).bind fun pfos => Simulates.pure _

theorem composeFont_alike (sizeShiftKey : String) (file : File) :
    Simulates (ComposeState.Alike tools shaperResult) (composeFont tools subset sizeShiftKey file)
      (composeFont tools subset sizeShiftKey file) := by
  refine (Simulates.liftExcept _).bind fun key => ?_
  split
  next => exact Simulates.pure ()
  next template chosen =>
    refine (Simulates.liftExcept _).bind fun compressed => ?_
    refine (composeMembers_alike mapping chosen compressed fun _ => id).bind fun made => ?_
    split
    next => exact Simulates.pure ()
    next members =>
      split
      next => exact Simulates.throw _ _
      next pfo merged =>
        apply Simulates.modify
        intro state other alike
        exact { alike with outDir := congrArg (Folder.write · file.1 pfo) alike.outDir }

theorem main_alike (inDir : List Char) (inFiles : Directory) (sizeShiftKey : String) :
    Simulates (ComposeState.Alike tools shaperResult) (main tools inDir inFiles subset sizeShiftKey)
      (main tools inDir inFiles subset sizeShiftKey) := by
  apply Simulates.forM
  intro file
  split
  next => exact Simulates.pure ()
  next => exact composeFont_alike mapping sizeShiftKey file

end FontCompose

namespace Generator

open ResourcePack FontCompose

/-! ## What the steps do -/

theorem Cache.modifyDir_self (cache : Cache) (key : FwKey) (change : FwDir → FwDir) :
    (cache.modifyDir key change).fwDirs key = change (cache.fwDirs key) :=
  Function.update_self ..

theorem Cache.modifyDir_of_ne (cache : Cache) {key other : FwKey} (different : other ≠ key)
    (change : FwDir → FwDir) : (cache.modifyDir key change).fwDirs other = cache.fwDirs other :=
  Function.update_of_ne different ..

theorem subprocess_ok {σ : Type} {script : EStateM PyError σ Unit} {start : Cache → σ}
    {store : σ → Cache → Cache} {written : σ → Directory} {cache after : Cache} {files : Directory}
    (run : subprocess script start store written cache = .ok files after) :
    ∃ state, script (start cache) = .ok () state ∧ files = written state ∧
      after = store state cache := by
  unfold subprocess at run
  split at run
  next state finished =>
    cases run
    exact ⟨state, finished, rfl, rfl⟩
  next => cases run

theorem subprocess_of_ok {σ : Type} {script : EStateM PyError σ Unit} {start : Cache → σ}
    {store : σ → Cache → Cache} {written : σ → Directory} {cache : Cache} {state : σ}
    (finished : script (start cache) = .ok () state) :
    subprocess script start store written cache = .ok (written state) (store state cache) := by
  simp only [subprocess, finished]

theorem storeFonts_self (key : FwKey) (sizeShiftKey : String) (state : ComposeState)
    (cache : Cache) : (storeFonts key sizeShiftKey state cache).fwDirs key =
      (cache.fwDirs key).addFonts sizeShiftKey state.outDir :=
  Cache.modifyDir_self cache key fun dir => dir.addFonts sizeShiftKey state.outDir

/-- Fonts of other sizes are not stored. -/
theorem storeFonts_missing {key : FwKey} {cache : Cache} {sizeShiftKey other : String}
    (different : other ≠ sizeShiftKey)
    (missing : (cache.fwDirs key).generatedFonts other = none) (state : ComposeState) :
    ((storeFonts key sizeShiftKey state cache).fwDirs key).generatedFonts other = none := by
  rw [storeFonts_self]
  exact (Function.update_of_ne different ..).trans missing

theorem storeFonts_patchedBin (key : FwKey) (sizeShiftKey : String) (state : ComposeState)
    (cache : Cache) : ((storeFonts key sizeShiftKey state cache).fwDirs key).patchedBin =
      (cache.fwDirs key).patchedBin := by
  rw [storeFonts_self]
  rfl

variable {machine : Machine} {key : FwKey} {cache after : Cache}

/-- The files that unpacking writes. -/
def unpackedFiles (files : List File) : Directory :=
  files.foldl (fun dir file => Folder.write dir file.1 file.2) []

theorem unpackSystemResources_ok {unpacked : Directory}
    (missing : (cache.fwDirs key).systemResources = none)
    (run : unpackSystemResources machine key cache = .ok unpacked after) :
    ∃ files, unpackResources (machine.firmware key).systemResources = .ok files ∧
      unpacked = unpackedFiles files ∧
      after = cache.modifyDir key fun dir => { dir with systemResources := some unpacked } := by
  obtain ⟨⟨⟩, between, first, run⟩ := bind_eq_ok.mp (cached_run run missing)
  obtain ⟨files, between', unpack, run⟩ := bind_eq_ok.mp run
  obtain ⟨unpackRun, rfl⟩ := liftExcept_eq_ok.mp unpack
  obtain ⟨⟨⟩, between', store, run⟩ := bind_eq_ok.mp run
  obtain ⟨rfl, rfl⟩ := pure_eq_ok.mp run
  cases first
  cases store
  refine ⟨files, unpackRun, rfl, ?_⟩
  simp [Cache.modifyDir]

theorem generateFonts_ok {originalFonts fontsDir : Directory} {subset : Subset}
    {sizeShiftKey : String} (missing : (cache.fwDirs key).generatedFonts sizeShiftKey = none)
    (run : generateFonts machine key originalFonts subset sizeShiftKey cache =
      .ok fontsDir after) :
    ∃ state, FontCompose.main machine.toTools (systemFontsPath key) originalFonts subset
        sizeShiftKey ⟨none, cache.lut, cache.bitmaps, []⟩ = .ok () state ∧
      fontsDir = state.outDir ∧ after = storeFonts key sizeShiftKey state cache := by
  exact subprocess_ok (cached_run run missing)

theorem runPatch_ok {tables : ShaperTables} {patched : List UInt8}
    (run : runPatch machine key tables cache = .ok patched after) :
    machine.patch (hwRevPlatformMap key.2) (machine.firmware key).tintinFw
        (machine.libpebble key.1 (hwRevPlatformMap key.2)) tables = .ok patched ∧
      after = cache.modifyDir key fun dir => { dir with patchedBin := some patched } := by
  cases made : machine.patch (hwRevPlatformMap key.2) (machine.firmware key).tintinFw
      (machine.libpebble key.1 (hwRevPlatformMap key.2)) tables with
  | error e =>
      simp only [runPatch, made] at run
      exact absurd run not_throw_eq_ok
  | ok patched' =>
      simp only [runPatch, made] at run
      obtain ⟨⟨⟩, between, store, run⟩ := bind_eq_ok.mp run
      obtain ⟨rfl, rfl⟩ := pure_eq_ok.mp run
      cases store
      exact ⟨rfl, rfl⟩

theorem patchFirmware_ok {patched : List UInt8} (missing : (cache.fwDirs key).patchedBin = none)
    (run : patchFirmware machine key cache = .ok patched after) :
    ∃ tables, cache.lut = some tables ∧
      machine.patch (hwRevPlatformMap key.2) (machine.firmware key).tintinFw
        (machine.libpebble key.1 (hwRevPlatformMap key.2)) tables = .ok patched ∧
      after = cache.modifyDir key fun dir => { dir with patchedBin := some patched } := by
  obtain ⟨found, between, first, run⟩ := bind_eq_ok.mp (cached_run run missing)
  cases first
  cases present : cache.lut with
  | none =>
      simp only [present] at run
      exact absurd run not_throw_eq_ok
  | some tables =>
      simp only [present] at run
      exact ⟨tables, rfl, runPatch_ok run⟩

/-! ## Finished directories -/

/-- A later state of a directory, in which all files are kept. -/
structure FwDir.Le (dir later : FwDir) : Prop where
  systemResources : ∀ files, dir.systemResources = some files → later.systemResources = some files
  systemFonts : ∀ files, dir.systemFonts = some files → later.systemFonts = some files
  generatedFonts : ∀ sizeShiftKey files, dir.generatedFonts sizeShiftKey = some files →
    later.generatedFonts sizeShiftKey = some files
  patchedBin : ∀ patched, dir.patchedBin = some patched → later.patchedBin = some patched

/-- A later state of the cache, for the directory of a firmware. -/
def Cache.Le (key : FwKey) (cache later : Cache) : Prop :=
  (cache.fwDirs key).Le (later.fwDirs key)

theorem Cache.Le.refl (key : FwKey) (cache : Cache) : Cache.Le key cache cache :=
  ⟨fun _ => id, fun _ => id, fun _ _ => id, fun _ => id⟩

theorem Cache.Le.trans (key : FwKey) (cache between later : Cache)
    (first : Cache.Le key cache between) (second : Cache.Le key between later) :
    Cache.Le key cache later where
  systemResources := fun files found =>
    second.systemResources files (first.systemResources files found)
  systemFonts := fun files found => second.systemFonts files (first.systemFonts files found)
  generatedFonts := fun sizeShiftKey files found =>
    second.generatedFonts sizeShiftKey files (first.generatedFonts sizeShiftKey files found)
  patchedBin := fun patched found => second.patchedBin patched (first.patchedBin patched found)

theorem unpackSystemResources_memoized (machine : Machine) (key : FwKey) :
    Memoized (Cache.Le key) (unpackSystemResources machine key) := by
  apply Memoized.cached (Cache.Le.refl key) fun _ _ files later => later.systemResources files
  intro cache unpacked after missing run
  obtain ⟨files, -, -, rfl⟩ := unpackSystemResources_ok missing run
  rw [Cache.Le, Cache.modifyDir_self]
  refine ⟨⟨fun files found => ?_, fun _ => id, fun _ _ => id, fun _ => id⟩, rfl⟩
  rw [missing] at found
  cases found

theorem extractFonts_memoized (machine : Machine) (key : FwKey) :
    Memoized (Cache.Le key) (extractFonts machine key) := by
  refine (unpackSystemResources_memoized machine key).bind (Cache.Le.trans key) fun resources => ?_
  apply Memoized.cached (Cache.Le.refl key) fun _ _ files later => later.systemFonts files
  intro cache fonts after missing run
  obtain ⟨state, -, rfl, rfl⟩ := subprocess_ok (cached_run run missing)
  rw [Cache.Le, Cache.modifyDir_self]
  refine ⟨⟨fun _ => id, fun files found => ?_, fun _ _ => id, fun _ => id⟩, rfl⟩
  rw [missing] at found
  cases found

theorem storeFonts_le {cache : Cache} {key : FwKey} {sizeShiftKey : String}
    (missing : (cache.fwDirs key).generatedFonts sizeShiftKey = none) (state : ComposeState) :
    Cache.Le key cache (storeFonts key sizeShiftKey state cache) := by
  rw [Cache.Le, storeFonts_self]
  refine ⟨fun _ => id, fun _ => id, fun other files found => ?_, fun _ => id⟩
  have different : other ≠ sizeShiftKey := by
    rintro rfl
    rw [missing] at found
    cases found
  exact (Function.update_of_ne different ..).trans found

theorem generateFonts_memoized (machine : Machine) (key : FwKey) (originalFonts : Directory)
    (subset : Subset) (sizeShiftKey : String) :
    Memoized (Cache.Le key) (generateFonts machine key originalFonts subset sizeShiftKey) := by
  apply Memoized.cached (Cache.Le.refl key) fun _ _ files later =>
    later.generatedFonts sizeShiftKey files
  intro cache fontsDir after missing run
  obtain ⟨state, -, rfl, rfl⟩ := generateFonts_ok missing run
  refine ⟨storeFonts_le missing state, ?_⟩
  rw [storeFonts_self]
  exact Function.update_self ..

theorem patchFirmware_memoized (machine : Machine) (key : FwKey) :
    Memoized (Cache.Le key) (patchFirmware machine key) := by
  apply Memoized.cached (Cache.Le.refl key) fun _ _ patched later => later.patchedBin patched
  intro cache patched after missing run
  obtain ⟨tables, -, -, rfl⟩ := patchFirmware_ok missing run
  rw [Cache.Le, Cache.modifyDir_self]
  refine ⟨⟨fun _ => id, fun _ => id, fun _ _ => id, fun patched found => ?_⟩, rfl⟩
  rw [missing] at found
  cases found

theorem generatePbl_memoized (machine : Machine) (key : FwKey) (sizeShiftKey : String) :
    Memoized (Cache.Le key) (generatePbl machine key sizeShiftKey) :=
  (extractFonts_memoized machine key).bind (Cache.Le.trans key) fun originalFonts =>
    (generateFonts_memoized machine key originalFonts _ sizeShiftKey).bind (Cache.Le.trans key)
      fun _ => Memoized.liftExcept (Cache.Le.refl key) _

/-! ## Untouched directories -/

/-- The cache of a run in an empty checkout, and of the same run beside what was there at its
start. -/
structure Cache.Alike (tools : Tools) (shaperResult : ShaperResult) (start : Cache) (key : FwKey)
    (cache other : Cache) : Prop where
  dir : cache.fwDirs key = other.fwDirs key
  lut : cache.lut = none ∨ cache.lut = other.lut
  bitmaps : AllSettled tools shaperResult cache.bitmaps
  otherBitmaps : AllSettled tools shaperResult other.bitmaps
  others : ∀ otherKey, otherKey ≠ key → other.fwDirs otherKey = start.fwDirs otherKey

section Alike

variable {start : Cache} {shaperResult : ShaperResult}

theorem Cache.Alike.modifyDir {tools : Tools} {cache other : Cache} {key : FwKey}
    (alike : Alike tools shaperResult start key cache other) (change : FwDir → FwDir) :
    Alike tools shaperResult start key (cache.modifyDir key change)
      (other.modifyDir key change) where
  dir := by rw [Cache.modifyDir_self, Cache.modifyDir_self, alike.dir]
  lut := alike.lut
  bitmaps := alike.bitmaps
  otherBitmaps := alike.otherBitmaps
  others := fun otherKey different =>
    (other.modifyDir_of_ne different change).trans (alike.others otherKey different)

variable (machine : Machine) (key : FwKey)

theorem extractFonts_alike :
    Simulates (Cache.Alike machine.toTools shaperResult start key) (extractFonts machine key)
      (extractFonts machine key) := by
  apply Simulates.bind
  · apply Simulates.cached fun _ _ alike => congrArg FwDir.systemResources alike.dir
    refine (Simulates.modify fun _ _ alike => alike.modifyDir _).bind fun _ => ?_
    refine (Simulates.liftExcept _).bind fun files => ?_
    exact (Simulates.modify fun _ _ alike => alike.modifyDir _).bind fun _ => Simulates.pure _
  · intro resources
    apply Simulates.cached fun _ _ alike => congrArg FwDir.systemFonts alike.dir
    intro cache other alike fonts after run
    obtain ⟨state, finished, rfl, rfl⟩ := subprocess_ok run
    exact ⟨_, subprocess_of_ok finished, alike.modifyDir _⟩

variable {machine} {subset : Subset} (mapping : OneMapping machine.toTools subset shaperResult)

include mapping in
theorem generateFonts_alike (originalFonts : Directory) (sizeShiftKey : String) :
    Simulates (Cache.Alike machine.toTools shaperResult start key)
      (generateFonts machine key originalFonts subset sizeShiftKey)
      (generateFonts machine key originalFonts subset sizeShiftKey) := by
  apply Simulates.cached fun _ _ alike => congrArg (fun dir => dir.generatedFonts sizeShiftKey)
    alike.dir
  intro cache other alike fontsDir after run
  obtain ⟨state, finished, rfl, rfl⟩ := subprocess_ok run
  have start : ComposeState.Alike machine.toTools shaperResult ⟨none, cache.lut, cache.bitmaps, []⟩
      ⟨none, other.lut, other.bitmaps, []⟩ :=
    ⟨rfl, (fun _ none => nomatch none), alike.lut, alike.bitmaps, alike.otherBitmaps, rfl⟩
  obtain ⟨state', finished', alikeStates⟩ := FontCompose.main_alike mapping (systemFontsPath key)
    originalFonts sizeShiftKey _ _ start () state finished
  rw [alikeStates.outDir]
  refine ⟨storeFonts key sizeShiftKey state' other, subprocess_of_ok finished', ?_⟩
  refine ⟨?_, alikeStates.lut, alikeStates.bitmaps, alikeStates.otherBitmaps,
    (alike.modifyDir fun dir => dir.addFonts sizeShiftKey state'.outDir).others⟩
  rw [storeFonts_self, storeFonts_self, alike.dir, alikeStates.outDir]

variable (machine) in
theorem runPatch_alike (tables : ShaperTables) :
    Simulates (Cache.Alike machine.toTools shaperResult start key) (runPatch machine key tables)
      (runPatch machine key tables) := by
  unfold runPatch
  split
  next => exact Simulates.throw _ _
  next patched made =>
    exact (Simulates.modify fun _ _ alike => alike.modifyDir _).bind fun _ =>
      Simulates.pure patched

variable (machine) in
theorem patchFirmware_alike :
    Simulates (Cache.Alike machine.toTools shaperResult start key) (patchFirmware machine key)
      (patchFirmware machine key) := by
  apply Simulates.cached fun _ _ alike => congrArg FwDir.patchedBin alike.dir
  apply Simulates.get_bind
  intro cache other alike patched after run
  cases present : cache.lut with
  | none =>
      simp only [present] at run
      exact absurd run not_throw_eq_ok
  | some tables =>
      have same : other.lut = some tables := by
        rcases alike.lut with missing | same
        · rw [missing] at present
          cases present
        · rw [← same, present]
      simp only [present] at run
      simp only [same]
      exact runPatch_alike machine key tables cache other alike patched after run

include mapping in
theorem generatePbl_alike (platform : platformSubsetMap (hwRevPlatformMap key.2) = subset)
    (sizeShiftKey : String) :
    Simulates (Cache.Alike machine.toTools shaperResult start key)
      (generatePbl machine key sizeShiftKey) (generatePbl machine key sizeShiftKey) := by
  rw [generatePbl, platform]
  exact (extractFonts_alike machine key).bind fun originalFonts =>
    (generateFonts_alike key mapping originalFonts sizeShiftKey).bind fun _ =>
      Simulates.liftExcept _

end Alike

/-! ## Runs -/

/-- The part of a run that depends on its firmware alone. -/
def build (machine : Machine) (key : FwKey) :
    EStateM PyError Cache (List (List UInt8) × List UInt8) := do
  let pbls ← sizeShiftKeys.mapM (generatePbl machine key)
  let patched ← patchFirmware machine key
  pure (pbls, patched)

theorem build_memoized (machine : Machine) (key : FwKey) : Memoized (Cache.Le key) (build machine key) :=
  (Memoized.mapM (Cache.Le.refl key) (Cache.Le.trans key) sizeShiftKeys
    (generatePbl_memoized machine key)).bind (Cache.Le.trans key) fun _ =>
      (patchFirmware_memoized machine key).bind (Cache.Le.trans key) fun _ =>
        Memoized.pure (Cache.Le.refl key) _

theorem build_alike {machine : Machine} {start : Cache} {key : FwKey} {subset : Subset}
    {shaperResult : ShaperResult} (mapping : OneMapping machine.toTools subset shaperResult)
    (platform : platformSubsetMap (hwRevPlatformMap key.2) = subset) :
    Simulates (Cache.Alike machine.toTools shaperResult start key) (build machine key)
      (build machine key) :=
  (Simulates.mapM sizeShiftKeys (generatePbl_alike key mapping platform)).bind fun _ =>
    (patchFirmware_alike machine key).bind fun _ => Simulates.pure _

/-- A run that completes in an empty checkout asks for language packs. -/
theorem generate_outPbls {args : Args} {output : Output} {after : Cache}
    (run : generate machine args .empty = .ok output after) :
    args.outPbls = sizeShiftKeys.length := by
  obtain ⟨pbls, between, first, run⟩ := bind_eq_ok.mp run
  by_contra other
  by_cases none : args.outPbls = 0
  · rw [generatePbls, if_pos none] at first
    obtain ⟨rfl, rfl⟩ := pure_eq_ok.mp first
    obtain ⟨patched, between, patch, -⟩ := bind_eq_ok.mp run
    obtain ⟨tables, present, -⟩ := patchFirmware_ok rfl patch
    cases present
  · rw [generatePbls, if_neg none, if_neg other] at first
    exact not_throw_eq_ok first

/-- Such a run is the part that depends on the firmware, and the tag. -/
theorem generate_eq_ok {args : Args} (packs : args.outPbls = sizeShiftKeys.length)
    {cache after : Cache} {output : Output} :
    generate machine args cache = .ok output after ↔
      ∃ patched, build machine args.key cache = .ok (output.pbls, patched) after ∧
        packFirmware args.version args.revNo patched = .ok output.pbz := by
  have pblsEq : generatePbls machine args = sizeShiftKeys.mapM (generatePbl machine args.key) := by
    rw [generatePbls, packs]
    rfl
  constructor
  · intro run
    obtain ⟨pbls, between, first, run⟩ := bind_eq_ok.mp run
    obtain ⟨patched, between', patch, run⟩ := bind_eq_ok.mp run
    obtain ⟨pbz, after', pack, run⟩ := bind_eq_ok.mp run
    obtain ⟨packRun, rfl⟩ := liftExcept_eq_ok.mp pack
    obtain ⟨rfl, rfl⟩ := pure_eq_ok.mp run
    rw [pblsEq] at first
    exact ⟨patched, bind_eq_ok.mpr ⟨pbls, between, first,
      bind_eq_ok.mpr ⟨patched, _, patch, rfl⟩⟩, packRun⟩
  · rintro ⟨patched, built, packRun⟩
    obtain ⟨pbls, between, first, run⟩ := bind_eq_ok.mp built
    obtain ⟨patched', between', patch, run⟩ := bind_eq_ok.mp run
    obtain ⟨same, rfl⟩ := pure_eq_ok.mp run
    cases same
    refine bind_eq_ok.mpr ⟨output.pbls, between, pblsEq ▸ first, ?_⟩
    refine bind_eq_ok.mpr ⟨patched, between', patch, ?_⟩
    exact bind_eq_ok.mpr ⟨output.pbz, between', liftExcept_eq_ok.mpr ⟨packRun, rfl⟩, rfl⟩

/-- Every directory is untouched, or as a run in an empty checkout leaves it, and so are the
bitmaps. -/
structure Cache.Ready (machine : Machine) (shaperResult : ShaperResult) (cache : Cache) : Prop where
  dirs : ∀ key, cache.fwDirs key = .empty ∨ ∃ built after, build machine key .empty =
    .ok built after ∧ cache.fwDirs key = after.fwDirs key
  bitmaps : AllSettled machine.toTools shaperResult cache.bitmaps

theorem Cache.Ready.empty (machine : Machine) (shaperResult : ShaperResult) :
    Ready machine shaperResult .empty :=
  ⟨fun _ => Or.inl rfl, fun _ => Or.inl rfl⟩

section Ready

variable {subset : Subset} {shaperResult : ShaperResult}
  (mapping : OneMapping machine.toTools subset shaperResult)

include mapping

/-- Beside such directories the files are built as in an empty checkout. -/
theorem Cache.Ready.build {cache after : Cache} (ready : cache.Ready machine shaperResult)
    (platform : platformSubsetMap (hwRevPlatformMap key.2) = subset)
    {built : List (List UInt8) × List UInt8}
    (fresh : build machine key .empty = .ok built after) :
    ∃ later, build machine key cache = .ok built later ∧ later.Ready machine shaperResult := by
  rcases ready.dirs key with untouched | ⟨built', after', fresh', finished⟩
  · have start : Cache.Alike machine.toTools shaperResult cache key .empty cache :=
      ⟨untouched.symm, Or.inl rfl, fun _ => Or.inl rfl, ready.bitmaps, fun _ _ => rfl⟩
    obtain ⟨later, run, alike⟩ := build_alike mapping platform _ _ start built after fresh
    refine ⟨later, run, fun otherKey => ?_, alike.otherBitmaps⟩
    by_cases same : otherKey = key
    · subst same
      exact Or.inr ⟨built, after, fresh, alike.dir.symm⟩
    · rw [alike.others otherKey same]
      exact ready.dirs otherKey
  · obtain ⟨rfl, rfl⟩ := EStateM.Result.ok.inj (fresh.symm.trans fresh')
    have later : Cache.Le key after cache := by
      rw [Cache.Le, finished]
      exact Cache.Le.refl key after
    exact ⟨cache, (build_memoized machine key _ _ _ fresh).2 cache later, ready⟩

end Ready

theorem outcome_eq_ok {args : Args} {cache : Cache} {output : Output} :
    outcome machine args cache = .ok output ↔
      ∃ after, generate machine args cache = .ok output after := by
  unfold outcome
  split
  next output' after run => simp [run]
  next e after run => simp [run]

theorem leaves_eq {args : Args} {cache after : Cache} {output : Output}
    (run : generate machine args cache = .ok output after) :
    leaves machine args cache = after := by
  simp only [leaves, run]

section Histories

variable {subset : Subset} {shaperResult : ShaperResult}
  (mapping : OneMapping machine.toTools subset shaperResult)

include mapping

/-- A run that completes in an empty checkout completes with the same files. -/
theorem Cache.Ready.generate {cache after : Cache} (ready : cache.Ready machine shaperResult)
    {args : Args} (platform : platformSubsetMap (hwRevPlatformMap args.hwRev) = subset)
    {output : Output} (fresh : generate machine args .empty = .ok output after) :
    ∃ later, generate machine args cache = .ok output later ∧
      later.Ready machine shaperResult := by
  have packs := generate_outPbls fresh
  obtain ⟨patched, built, packRun⟩ := (generate_eq_ok packs).mp fresh
  obtain ⟨later, run, readyLater⟩ := ready.build mapping platform built
  exact ⟨later, (generate_eq_ok packs).mpr ⟨patched, run, packRun⟩, readyLater⟩

theorem Cache.Ready.outcomes_eq {history : List Args} {cache : Cache}
    (ready : cache.Ready machine shaperResult)
    (platforms : ∀ args ∈ history, platformSubsetMap (hwRevPlatformMap args.hwRev) = subset)
    (completes : ∀ args ∈ history, ∃ output, outcome machine args .empty = .ok output) :
    outcomes machine cache history = history.map fun args => outcome machine args .empty := by
  induction history generalizing cache with
  | nil => rfl
  | cons args history ih =>
      rw [List.forall_mem_cons] at platforms completes
      obtain ⟨output, fresh⟩ := completes.1
      obtain ⟨after, freshRun⟩ := outcome_eq_ok.mp fresh
      obtain ⟨later, run, readyLater⟩ := ready.generate mapping platforms.1 freshRun
      rw [outcomes, List.map_cons, leaves_eq run, fresh, outcome_eq_ok.mpr ⟨later, run⟩,
        ih readyLater platforms.2 completes.2]

end Histories

end Generator

end Elbbep
