import Elbbep.ComposedMembers
import Elbbep.WritableFonts

/-!
# Finished bitmaps

Where all glyphs of a member can be packed as they are drawn, the first run for it dumps all of
them, and all later runs find and leave the same dumps and the same thickened glyphs.
-/

namespace Elbbep

open PythonStruct PfoMerge FailingPrograms

/-! ## Dumps -/

namespace FontGen

/-- The file that is dumped for a glyph with pixels. -/
def dumpedFile (render : Nat → Nat → RenderedGlyph) (name : Nat → Nat → BitmapName)
    (codepoint : Nat) : GIndex → Option (BitmapName × Bitmap)
  | .zeroWidth => none
  | .face gindex => (render codepoint gindex).bitmap.map fun bitmap =>
      (name codepoint gindex, bitmap)

/-- The files that are dumped for the sources when nothing goes wrong. -/
def dumpedFiles (render : Nat → Nat → RenderedGlyph) (name : Nat → Nat → BitmapName) :
    (added : List GIndex) → (sources : List (Nat × GIndex)) → BitmapFolder
  | _, [] => []
  | added, (codepoint, gindex) :: sources =>
      if gindex ∈ added then dumpedFiles render name added sources
      else (dumpedFile render name codepoint gindex).toList ++
        dumpedFiles render name (gindex :: added) sources

/-- The names of dumps begin with the index of the glyph. -/
def Indexed (name : Nat → Nat → BitmapName) : Prop :=
  ∀ codepoint gindex, (name codepoint gindex).gindex = gindex

theorem indexed_bitmapName (unicodedataName : Nat → Option (List Char))
    (codeptLabels : List (Nat × String)) : Indexed (bitmapName unicodedataName codeptLabels) :=
  fun _ _ => rfl

section Dumps

variable {font drawn : Font} {name : Nat → Nat → BitmapName} {added : List GIndex}
  {sources : List (Nat × GIndex)}

theorem dumpGlyph_eq (render : Nat → Nat → RenderedGlyph) (dump : BitmapFolder) (codepoint : Nat)
    (gindex : GIndex) : dumpGlyph render name dump codepoint gindex =
      dump.writeAll (dumpedFile render name codepoint gindex).toList := by
  cases gindex with
  | zeroWidth => rfl
  | face index =>
      rw [dumpGlyph, dumpedFile]
      cases (render codepoint index).bitmap <;> rfl

theorem dumpedFile_gindex (indexed : Indexed name) {codepoint : Nat} {gindex : GIndex}
    {file : BitmapName × Bitmap}
    (dumped : dumpedFile font.render name codepoint gindex = some file) :
    GIndex.face file.1.gindex = gindex := by
  cases gindex with
  | zeroWidth => cases dumped
  | face index =>
      obtain ⟨bitmap, -, rfl⟩ := Option.map_eq_some_iff.mp dumped
      rw [indexed]

theorem not_mem_added (indexed : Indexed name) {file : BitmapName × Bitmap}
    (member : file ∈ dumpedFiles font.render name added sources) :
    GIndex.face file.1.gindex ∉ added := by
  induction sources generalizing added with
  | nil => cases member
  | cons source sources ih =>
      obtain ⟨codepoint, gindex⟩ := source
      rw [dumpedFiles] at member
      split at member
      · exact ih member
      next new =>
        rcases List.mem_append.mp member with here | later
        · rwa [dumpedFile_gindex indexed (Option.mem_toList.mp here)]
        · exact fun inAdded => ih later (List.mem_cons_of_mem gindex inAdded)

theorem nodup_dumpedFiles (indexed : Indexed name) :
    ((dumpedFiles font.render name added sources).map Prod.fst).Nodup := by
  induction sources generalizing added with
  | nil => exact List.nodup_nil
  | cons source sources ih =>
      obtain ⟨codepoint, gindex⟩ := source
      rw [dumpedFiles]
      split
      · exact ih
      · cases dumped : dumpedFile font.render name codepoint gindex with
        | none => exact ih
        | some file =>
            refine List.nodup_cons.mpr ⟨fun later => ?_, ih⟩
            obtain ⟨other, inLater, same⟩ := List.mem_map.mp later
            apply not_mem_added indexed inLater
            rw [same, dumpedFile_gindex indexed dumped]
            exact List.mem_cons_self

/-- Where everything can be packed, everything is dumped. -/
theorem dumpGlyphs_packs (packs : drawn.Packs sources) (dump : BitmapFolder) :
    font.dumpGlyphs name drawn added sources dump =
      dump.writeAll (dumpedFiles font.render name added sources) := by
  induction sources generalizing added dump with
  | nil => rfl
  | cons source sources ih =>
      obtain ⟨codepoint, gindex⟩ := source
      have later : drawn.Packs sources :=
        fun other member => packs other (List.mem_cons_of_mem _ member)
      rw [Font.dumpGlyphs, dumpedFiles]
      split
      · exact ih later dump
      · obtain ⟨data, bits⟩ := packs (codepoint, gindex) List.mem_cons_self codepoint
        simp only [bits]
        rw [ih later, dumpGlyph_eq, Folder.writeAll, Folder.writeAll, Folder.writeAll,
          List.foldl_append]

/-- What has been dumped before is dumped again. -/
theorem dumpGlyphs_of_mem {dump : BitmapFolder} (distinct : (dump.map Prod.fst).Nodup)
    (members : ∀ file ∈ dumpedFiles font.render name added sources, file ∈ dump) :
    font.dumpGlyphs name drawn added sources dump = dump := by
  induction sources generalizing added with
  | nil => rfl
  | cons source sources ih =>
      obtain ⟨codepoint, gindex⟩ := source
      rw [dumpedFiles] at members
      rw [Font.dumpGlyphs]
      split
      next known =>
        rw [if_pos known] at members
        exact ih members
      next new =>
        rw [if_neg new, List.forall_mem_append] at members
        rw [dumpGlyph_eq, Folder.writeAll_of_mem distinct members.1]
        split
        · rfl
        · exact ih members.2

end Dumps

end FontGen

/-! ## Thickened glyphs -/

namespace FixIjam

open FontGen (Bitmap BitmapName BitmapDir BitmapFolder)

variable {keyOrder : DictOrder Point}

/-- What `fix_ijam.py` writes for some files. -/
def thickenedFiles (keyOrder : DictOrder Point) (files : BitmapFolder) : BitmapFolder :=
  files.filterMap fun file => (thicken keyOrder file.2).toOption.join.map fun bitmap =>
    (file.1, bitmap)

/-- No file makes the script fail. -/
def Thickens (keyOrder : DictOrder Point) (files : BitmapFolder) : Prop :=
  ∀ file ∈ files, ∃ made, thicken keyOrder file.2 = .ok made

theorem nodup_thickenedFiles {files : BitmapFolder} (distinct : (files.map Prod.fst).Nodup) :
    ((thickenedFiles keyOrder files).map Prod.fst).Nodup := by
  have names : ((thickenedFiles keyOrder files).map Prod.fst).Sublist (files.map Prod.fst) := by
    rw [thickenedFiles]
    clear distinct
    induction files with
    | nil => exact .slnil
    | cons file files ih =>
        rw [List.filterMap_cons, List.map_cons]
        cases (thicken keyOrder file.2).toOption.join with
        | none => exact ih.cons _
        | some bitmap => exact ih.cons_cons _
  exact distinct.sublist names

theorem forM_processFile {files : BitmapFolder} {dir after : BitmapDir} :
    files.forM (processFile keyOrder) dir = .ok () after ↔ Thickens keyOrder files ∧
      after = { dir with collect := dir.collect.writeAll (thickenedFiles keyOrder files) } := by
  induction files generalizing dir with
  | nil =>
      constructor
      · intro run
        obtain ⟨-, rfl⟩ := pure_eq_ok.mp run
        exact ⟨fun _ member => (nomatch member), rfl⟩
      · rintro ⟨-, rfl⟩
        rfl
  | cons file files ih =>
      rw [forM_cons_eq_ok, Thickens, List.forall_mem_cons, thickenedFiles, List.filterMap_cons]
      unfold processFile
      cases made : thicken keyOrder file.2 with
      | error e =>
          constructor
          · rintro ⟨between, run, -⟩
            exact absurd run not_throw_eq_ok
          · rintro ⟨⟨⟨_, none⟩, -⟩, -⟩
            cases none
      | ok bitmap =>
          have known : ∃ any, (.ok bitmap : Except PyError (Option Bitmap)) = .ok any :=
            ⟨bitmap, rfl⟩
          cases bitmap with
          | none =>
              constructor
              · rintro ⟨between, run, later⟩
                obtain ⟨-, rfl⟩ := pure_eq_ok.mp run
                exact ⟨⟨known, (ih.mp later).1⟩, (ih.mp later).2⟩
              · rintro ⟨⟨-, thickens⟩, rfl⟩
                exact ⟨dir, rfl, ih.mpr ⟨thickens, rfl⟩⟩
          | some bitmap =>
              constructor
              · rintro ⟨between, run, later⟩
                cases run
                exact ⟨⟨known, (ih.mp later).1⟩, (ih.mp later).2⟩
              · rintro ⟨⟨-, thickens⟩, rfl⟩
                exact ⟨_, rfl, ih.mpr ⟨thickens, rfl⟩⟩

theorem main_eq_ok {listing : DictOrder (BitmapName × Bitmap)} {dir after : BitmapDir} :
    main keyOrder listing dir = .ok () after ↔
      Thickens keyOrder (dir.dump.glob listing isArabic) ∧
        after = { dir with
          collect := dir.collect.writeAll (thickenedFiles keyOrder (dir.dump.glob listing isArabic)) } := by
  rw [← forM_processFile]
  exact Iff.rfl

end FixIjam

/-! ## Members -/

namespace FontCompose

open FontGen (BitmapDir dumpedFiles)
open FixIjam (Thickens thickenedFiles)

/-- The dumps of all glyphs of a member, and what `fix_ijam.py` makes of them. -/
def finishedDir (tools : Tools) (shaperResult : ShaperResult) (member : MergeMember) : BitmapDir :=
  let dump := dumpedFiles (tools.faces.render member) (memberNames tools shaperResult) []
    (memberSources tools.faces shaperResult.mapTf member)
  ⟨dump, thickenedFiles tools.keyOrder (dump.glob tools.bitmapListing FixIjam.isArabic)⟩

/-- The script does not fail on the dumps of a member. -/
def DumpsThicken (tools : Tools) (shaperResult : ShaperResult) (member : MergeMember) : Prop :=
  Thickens tools.keyOrder
    ((finishedDir tools shaperResult member).dump.glob tools.bitmapListing FixIjam.isArabic)

variable {tools : Tools} {shaperResult : ShaperResult} {member : MergeMember}

theorem nodup_finishedDump (tools : Tools) (shaperResult : ShaperResult) (member : MergeMember) :
    ((finishedDir tools shaperResult member).dump.map Prod.fst).Nodup := by
  have distinct := @FontGen.nodup_dumpedFiles (memberFont tools.faces false 0 member)
    (memberNames tools shaperResult) []
    (memberSources tools.faces shaperResult.mapTf member) (FontGen.indexed_bitmapName _ _)
  exact distinct

theorem nodup_finishedCollect (tools : Tools) (shaperResult : ShaperResult)
    (member : MergeMember) :
    ((finishedDir tools shaperResult member).collect.map Prod.fst).Nodup :=
  FixIjam.nodup_thickenedFiles (Folder.nodup_glob (nodup_finishedDump tools shaperResult member))

theorem finishedDir_of_isEmpty
    (noDumps : (finishedDir tools shaperResult member).dump.isEmpty = true) :
    finishedDir tools shaperResult member = .empty := by
  have none := List.isEmpty_iff.mp noDumps
  have collect : (finishedDir tools shaperResult member).collect = thickenedFiles tools.keyOrder
      ((finishedDir tools shaperResult member).dump.glob tools.bitmapListing FixIjam.isArabic) :=
    rfl
  rw [none, Folder.glob_nil] at collect
  have parts : finishedDir tools shaperResult member =
      ⟨(finishedDir tools shaperResult member).dump,
        (finishedDir tools shaperResult member).collect⟩ := rfl
  rw [parts, none, collect]
  rfl

/-- A directory for a member that is untouched or finished. -/
def Settled (tools : Tools) (shaperResult : ShaperResult) (member : MergeMember)
    (dir : BitmapDir) : Prop :=
  dir = .empty ∨ dir = finishedDir tools shaperResult member

theorem Settled.collect {dir : BitmapDir} (settled : Settled tools shaperResult member dir) :
    dir.collect.writeAll (finishedDir tools shaperResult member).collect =
      (finishedDir tools shaperResult member).collect := by
  rcases settled with rfl | rfl
  · exact Folder.writeAll_nil (nodup_finishedCollect tools shaperResult member)
  · exact Folder.writeAll_of_mem (nodup_finishedCollect tools shaperResult member) fun _ => id

theorem collecting_empty (font : FontGen.Font) (names : Nat → Nat → FontGen.BitmapName) :
    font.collecting names .empty = font := by
  have same : (fun codepoint gindex => BitmapDir.empty.collected (names codepoint gindex)
      (font.render codepoint gindex)) = font.render := by
    funext codepoint gindex
    rw [BitmapDir.collected]
    cases (font.render codepoint gindex).bitmap <;> rfl
  rw [FontGen.Font.collecting, same]

variable {compressed : Bool} {size : Nat}
  (packs : (memberFont tools.faces compressed size member).Packs
    (memberSources tools.faces shaperResult.mapTf member))

include packs in
/-- "We must dump the glyphs first." -/
theorem Settled.dump {dir : BitmapDir} (settled : Settled tools shaperResult member dir) :
    (if dir.dump.isEmpty then
      (memberFont tools.faces compressed size member).dumpGlyphs (memberNames tools shaperResult)
        ((memberFont tools.faces compressed size member).collecting
          (memberNames tools shaperResult) dir) []
        (memberSources tools.faces shaperResult.mapTf member) dir.dump
    else dir.dump) = (finishedDir tools shaperResult member).dump := by
  have fresh : dir = .empty → (memberFont tools.faces compressed size member).dumpGlyphs
      (memberNames tools shaperResult) ((memberFont tools.faces compressed size member).collecting
        (memberNames tools shaperResult) dir) []
        (memberSources tools.faces shaperResult.mapTf member) dir.dump =
      (finishedDir tools shaperResult member).dump := by
    rintro rfl
    rw [collecting_empty, FontGen.dumpGlyphs_packs packs]
    exact Folder.writeAll_nil (nodup_finishedDump tools shaperResult member)
  rcases settled with rfl | rfl
  · rw [if_pos (by rfl), fresh rfl]
  · split
    next noDumps => exact fresh (finishedDir_of_isEmpty noDumps)
    next => rfl

include packs in
/-- Preparing leaves the bitmaps finished. -/
theorem prepareBitmaps_settled {dir after : BitmapDir}
    (settled : Settled tools shaperResult member dir) :
    prepareBitmaps tools (memberFont tools.faces compressed size member)
        (memberNames tools shaperResult) (memberSources tools.faces shaperResult.mapTf member) dir =
          .ok () after ↔
      DumpsThicken tools shaperResult member ∧ after = finishedDir tools shaperResult member := by
  have dumped : prepareBitmaps tools (memberFont tools.faces compressed size member)
      (memberNames tools shaperResult) (memberSources tools.faces shaperResult.mapTf member) dir =
        failingWith .exception (FixIjam.main tools.keyOrder tools.bitmapListing)
          ⟨(finishedDir tools shaperResult member).dump, dir.collect⟩ := by
    rw [← settled.dump packs]
    unfold prepareBitmaps
    rw [bind_run (get_run dir)]
    cases noDumps : dir.dump.isEmpty with
    | false => simp only [Bool.false_eq_true, if_false]
    | true =>
        simp only [if_true]
        rw [bind_run (attempt_fontgen _ _ _ dir)]
  rw [dumped, failingWith_eq_ok, FixIjam.main_eq_ok]
  have collect := settled.collect
  exact Iff.and Iff.rfl (by simp only [finishedDir] at collect ⊢; rw [collect])

include packs in
/-- A member with thickened dots is drawn with its finished bitmaps, and leaves them finished. -/
theorem memberPfo_settled (ijam : member.fixIjam = true) {state after : ComposeState}
    (settled : Settled tools shaperResult member (state.bitmaps member.bitmapKey))
    {made : Option (List UInt8)} :
    memberPfo tools compressed size member shaperResult state = .ok made after ↔
      DumpsThicken tools shaperResult member ∧
        made = (((memberFont tools.faces compressed size member).collecting
          (memberNames tools shaperResult) (finishedDir tools shaperResult member)).bitstring
            (memberSources tools.faces shaperResult.mapTf member)).toOption ∧
        after = state.storeBitmaps member (finishedDir tools shaperResult member) := by
  have again := attempt_fontgen (memberFont tools.faces compressed size member)
    (memberNames tools shaperResult) (memberSources tools.faces shaperResult.mapTf member)
    (finishedDir tools shaperResult member)
  rw [FontGen.dumpGlyphs_of_mem (nodup_finishedDump tools shaperResult member) fun _ => id] at again
  rw [memberPfo_ijam ijam]
  constructor
  · rintro ⟨ready, prepared, dir, drawn, rfl⟩
    obtain ⟨thickens, rfl⟩ := (prepareBitmaps_settled packs settled).mp prepared
    obtain ⟨rfl, rfl⟩ := EStateM.Result.ok.inj (again.symm.trans drawn)
    exact ⟨thickens, rfl, rfl⟩
  · rintro ⟨thickens, rfl, rfl⟩
    exact ⟨_, (prepareBitmaps_settled packs settled).mpr ⟨thickens, rfl⟩, _, again, rfl⟩

/-! ## All members -/

/-- The members with thickened dots. -/
def thickMembers : List MergeMember :=
  (notificationSizeMap.flatMap fun sets =>
    (templates sets.2.1 sets.2.2).flatMap Prod.snd).filter MergeMember.fixIjam

/-- No two of them share a directory. -/
theorem thickMembers_bitmapKey : ∀ member ∈ thickMembers, ∀ other ∈ thickMembers,
    other.bitmapKey = member.bitmapKey → other = member := by
  decide

theorem thickMembers_withShaper : ∀ member ∈ thickMembers, member.withShaper = true := by
  decide

theorem mem_thickMembers {key : Int × Option (List Char)} {sizeShiftKey : String}
    {template : List MergeMember} (chosen : templateFor key sizeShiftKey = .ok template)
    (inTemplate : member ∈ template) (ijam : member.fixIjam = true) : member ∈ thickMembers := by
  obtain ⟨sets, inMap, inTemplates⟩ := selectTemplate_mem (templateFor_ok chosen)
  refine List.mem_filter.mpr ⟨List.mem_flatMap.mpr ⟨sets, inMap, ?_⟩, ijam⟩
  exact List.mem_flatMap.mpr ⟨_, inTemplates, inTemplate⟩

/-- The directories when everything is dumped and thickened. -/
def finishedBitmaps (tools : Tools) (shaperResult : ShaperResult) (key : BitmapKey) : BitmapDir :=
  (thickMembers.find? fun member => member.bitmapKey == key).elim .empty
    (finishedDir tools shaperResult)

theorem finishedBitmaps_bitmapKey (thick : member ∈ thickMembers) :
    finishedBitmaps tools shaperResult member.bitmapKey = finishedDir tools shaperResult member := by
  have found : thickMembers.find? (fun other => other.bitmapKey == member.bitmapKey) =
      some member :=
    find?_eq_some_of_unique thick (beq_self_eq_true _) fun other inMembers same =>
      thickMembers_bitmapKey member thick other inMembers (beq_iff_eq.mp same)
  rw [finishedBitmaps, found]
  rfl

/-- All directories are untouched or finished. -/
def AllSettled (tools : Tools) (shaperResult : ShaperResult) (bitmaps : BitmapKey → BitmapDir) :
    Prop :=
  ∀ key, bitmaps key = .empty ∨ bitmaps key = finishedBitmaps tools shaperResult key

theorem AllSettled.settled {bitmaps : BitmapKey → BitmapDir}
    (all : AllSettled tools shaperResult bitmaps) (thick : member ∈ thickMembers) :
    Settled tools shaperResult member (bitmaps member.bitmapKey) := by
  rw [Settled, ← finishedBitmaps_bitmapKey thick]
  exact all member.bitmapKey

theorem AllSettled.store {state : ComposeState} (all : AllSettled tools shaperResult state.bitmaps)
    (thick : member ∈ thickMembers) : AllSettled tools shaperResult
      (state.storeBitmaps member (finishedDir tools shaperResult member)).bitmaps := by
  intro key
  by_cases same : key = member.bitmapKey
  · rw [same, ComposeState.storeBitmaps_self, finishedBitmaps_bitmapKey thick]
    exact Or.inr rfl
  · have kept : (state.storeBitmaps member (finishedDir tools shaperResult member)).bitmaps key =
        state.bitmaps key := Function.update_of_ne same ..
    rw [kept]
    exact all key

/-- "They must have the same glyph mapping": what the shaper makes of the fonts is the same for all
of them, and all glyphs of members with thickened dots can be packed as they are drawn. -/
structure OneMapping (tools : Tools) (subset : Subset) (shaperResult : ShaperResult) : Prop where
  same : ∀ ttfPath tables other, textShaper tools.unicodedataName (tools.hbFont ttfPath) subset =
    .ok (tables, other) → other = shaperResult
  packs : ∀ key sizeShiftKey template, templateFor key sizeShiftKey = .ok template →
    ∀ member ∈ template, member.fixIjam = true → ∀ compressed,
      (memberFont tools.faces compressed key.1.toNat member).Packs
        (memberSources tools.faces shaperResult.mapTf member)

end FontCompose

end Elbbep
