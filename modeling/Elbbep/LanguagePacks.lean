import Elbbep.GeneratorHistory
import Elbbep.ResourceRoundTrip

/-!
# Language packs

What the generator puts into a language pack.  Every font in it is composed from a font of the
firmware, with the finished bitmaps of its members, and all fonts of all packs use the map that was
made together with the tables that are compiled into the firmware.
-/

namespace Elbbep

open PythonStruct PfoMerge FailingPrograms

/-! ## Fonts of the firmware -/

namespace FindSystemFonts

/-- A font is a copy of the resource that the table has for its name. -/
structure Copied (unpacked : Directory) (item : List UInt8 × Nat) (file : File) : Prop where
  name : file.1 = pfoName item.2 item.1
  kept : ¬ "FALLBACK_INTERNAL".toList <:+: nameChars item.1
  contents : ∃ src ∈ unpacked,
    Directory.startsWith (ResourcePack.resourceName item.2) src.1 = true ∧ file.2 = src.2

variable {listing : DictOrder File} {unpacked : Directory}

theorem copyFont_ok {item : List UInt8 × Nat} {dir after : Directory}
    (run : copyFont listing unpacked item dir = .ok () after) :
    ("FALLBACK_INTERNAL".toList <:+: nameChars item.1 ∧ after = dir) ∨
      ∃ file, Copied unpacked item file ∧ after = dir.write file.1 file.2 := by
  unfold copyFont at run
  by_cases fallback : "FALLBACK_INTERNAL".toList <:+: nameChars item.1
  · rw [if_pos fallback] at run
    obtain ⟨-, rfl⟩ := pure_eq_ok.mp run
    exact Or.inl ⟨fallback, rfl⟩
  · rw [if_neg fallback] at run
    cases found : (unpacked.glob listing
        (Directory.startsWith (ResourcePack.resourceName item.2))).head? with
    | none =>
        simp only [found] at run
        exact absurd run not_throw_eq_ok
    | some src =>
        simp only [found] at run
        by_cases slash : '/' ∈ pfoName item.2 item.1
        · rw [if_pos slash] at run
          exact absurd run not_throw_eq_ok
        · rw [if_neg slash] at run
          cases run
          obtain ⟨member, starts⟩ := Folder.mem_glob.mp (List.mem_of_mem_head? found)
          exact Or.inr ⟨(pfoName item.2 item.1, src.2), ⟨rfl, fallback, src, member, starts, rfl⟩,
            rfl⟩

/-- The directory when some items of the table are copied. -/
structure AllCopied (unpacked : Directory) (done : List (List UInt8 × Nat)) (dir : Directory) :
    Prop where
  sound : ∀ file ∈ dir, ∃ item ∈ done, Copied unpacked item file
  complete : ∀ item ∈ done, ¬ "FALLBACK_INTERNAL".toList <:+: nameChars item.1 →
    pfoName item.2 item.1 ∈ dir.map Prod.fst

theorem AllCopied.step {done : List (List UInt8 × Nat)} {dir after : Directory}
    (all : AllCopied unpacked done dir) {item : List UInt8 × Nat}
    (run : copyFont listing unpacked item dir = .ok () after) :
    AllCopied unpacked (done ++ [item]) after := by
  have earlier : ∀ file ∈ dir, ∃ other ∈ done ++ [item], Copied unpacked other file := by
    intro file member
    obtain ⟨other, inDone, copied⟩ := all.sound file member
    exact ⟨other, List.mem_append_left _ inDone, copied⟩
  rcases copyFont_ok run with ⟨fallback, rfl⟩ | ⟨new, copied, rfl⟩
  · refine ⟨earlier, fun other member kept => ?_⟩
    rcases List.mem_append.mp member with inDone | last
    · exact all.complete other inDone kept
    · rw [List.mem_singleton.mp last] at kept
      exact absurd fallback kept
  · refine ⟨fun file member => ?_, fun other member kept => ?_⟩
    · rcases Folder.mem_of_mem_write member with rfl | inDir
      · exact ⟨item, List.mem_append_right _ (List.mem_singleton_self item), copied⟩
      · exact earlier file inDir
    · rw [Folder.mem_names_write]
      rcases List.mem_append.mp member with inDone | last
      · exact Or.inr (all.complete other inDone kept)
      · rw [List.mem_singleton.mp last]
        exact Or.inl copied.name.symm

/-- The fonts are the copies of the resources in the table. -/
theorem main_ok {order : DictOrder (List UInt8 × Nat)} {targetBin : List UInt8}
    {fonts : Directory} (run : main order listing targetBin unpacked [] = .ok () fonts) :
    ∃ table, extractSystemFontResourceIds targetBin = .ok table ∧
      AllCopied unpacked table fonts := by
  obtain ⟨table, start, extract, copy⟩ := bind_eq_ok.mp run
  obtain ⟨extractRun, rfl⟩ := liftExcept_eq_ok.mp extract
  have start : AllCopied unpacked [] [] := ⟨by simp, by simp⟩
  have copied := forM_keeps (fun _ _ _ _ all step => all.step step) start copy
  have same (item : List UInt8 × Nat) : item ∈ [] ++ order.iterate table ↔ item ∈ table :=
    (order.perm table).mem_iff
  refine ⟨table, extractRun, fun file member => ?_, fun item member => ?_⟩
  · obtain ⟨item, inTable, copy⟩ := copied.sound file member
    exact ⟨item, (same item).mp inTable, copy⟩
  · exact copied.complete item ((same item).mpr member)

end FindSystemFonts

/-! ## Composed fonts -/

namespace FontCompose

/-- What `compose_font` makes of a file when it has the files of the shaper and the finished
bitmaps. -/
def composedFont (tools : Tools) (shaperResult : ShaperResult) (sizeShiftKey : String)
    (file : File) : Except PyError (List UInt8) := do
  let key ← fontKey file.1
  let template ← templateFor key sizeShiftKey
  composedPfo tools.cptOrder tools.glyphOrder
    (collectedFaces tools shaperResult (finishedBitmaps tools shaperResult)) shaperResult.mapTf
    file.2 key.1.toNat template

/-- The font whose glyphs are mapped when the file is the first one with a template. -/
def shaperTtf (file : File) : Option TtfPath :=
  (fontKey file.1).toOption.bind fun key => (templateFor key "small").toOption.bind fun template =>
    template.head?.map MergeMember.ttfPath

/-! ### Templates for all sizes -/

theorem lookup_map_snd {α β γ : Type} [BEq α] (f : β → γ) (items : List (α × β)) (key : α) :
    (items.map fun item => (item.1, f item.2)).lookup key = (items.lookup key).map f := by
  induction items with
  | nil => rfl
  | cons item items ih =>
      rw [List.map_cons, List.lookup_cons, List.lookup_cons, ih]
      cases key == item.1 <;> rfl

theorem selectTemplate_toOption {sizeShiftKey : String}
    {sets : List MergeMember × List MergeMember}
    (found : notificationSizeMap.lookup sizeShiftKey = some sets) (size : Nat)
    (variant : Option String) :
    (selectTemplate size variant sizeShiftKey).toOption =
      (templates sets.1 sets.2).lookup (size, variant) := by
  simp only [selectTemplate, found]
  cases (templates sets.1 sets.2).lookup (size, variant) <;> rfl

/-- A template has the same fonts for every size of notifications. -/
theorem selectTemplate_ttf {sizeShiftKey : String} (known : sizeShiftKey ∈ Generator.sizeShiftKeys)
    (size : Nat) (variant : Option String) :
    (selectTemplate size variant sizeShiftKey).toOption.map (List.map MergeMember.ttfPath) =
      (selectTemplate size variant "small").toOption.map (List.map MergeMember.ttfPath) := by
  have sets : ∃ sets, notificationSizeMap.lookup sizeShiftKey = some sets ∧
      (templates sets.1 sets.2).map (fun item => (item.1, item.2.map MergeMember.ttfPath)) =
        (templates notificationSetSm notificationSetSmBold).map
          (fun item => (item.1, item.2.map MergeMember.ttfPath)) := by
    simp only [Generator.sizeShiftKeys, List.mem_cons, List.not_mem_nil, or_false] at known
    rcases known with rfl | rfl | rfl
    · exact ⟨_, rfl, rfl⟩
    · exact ⟨_, rfl, rfl⟩
    · exact ⟨_, rfl, rfl⟩
  obtain ⟨sets, found, same⟩ := sets
  have small : notificationSizeMap.lookup "small" =
      some (notificationSetSm, notificationSetSmBold) := rfl
  rw [selectTemplate_toOption found, selectTemplate_toOption small, ← lookup_map_snd,
    ← lookup_map_snd, same]

theorem templateFor_ttf {sizeShiftKey : String} (known : sizeShiftKey ∈ Generator.sizeShiftKeys)
    (key : Int × Option (List Char)) :
    (templateFor key sizeShiftKey).toOption.map (List.map MergeMember.ttfPath) =
      (templateFor key "small").toOption.map (List.map MergeMember.ttfPath) := by
  unfold templateFor
  by_cases natural : 0 ≤ key.1
  · rw [if_pos natural, if_pos natural]
    exact selectTemplate_ttf known _ _
  · rw [if_neg natural, if_neg natural]

/-- A file has a template for one size if it has one for another, with the same fonts. -/
theorem shaperTtf_eq {sizeShiftKey : String} (known : sizeShiftKey ∈ Generator.sizeShiftKeys)
    {file : File} {key : Int × Option (List Char)} (keyRun : fontKey file.1 = .ok key) :
    shaperTtf file = (templateFor key sizeShiftKey).toOption.bind fun template =>
      template.head?.map MergeMember.ttfPath := by
  have heads (found : Option (List MergeMember)) :
      (found.bind fun template => template.head?.map MergeMember.ttfPath) =
        (found.map (List.map MergeMember.ttfPath)).bind List.head? := by
    cases found with
    | none => rfl
    | some template => exact List.head?_map.symm
  rw [shaperTtf, keyRun, heads, templateFor_ttf known, ← heads]
  rfl

/-! ### One font -/

/-- The directory with the font that is composed from a file, if there is one. -/
def addComposed (tools : Tools) (shaperResult : ShaperResult) (sizeShiftKey : String)
    (dir : Directory) (file : File) : Directory :=
  (composedFont tools shaperResult sizeShiftKey file).toOption.elim dir fun pfo =>
    dir.write file.1 pfo

variable {tools : Tools} {subset : Subset} {state after : ComposeState}
  {shaperResult : ShaperResult}

/-- Only the directory of a member matters for it. -/
theorem memberFont_collected {member : MergeMember} {bitmaps other : BitmapKey → FontGen.BitmapDir}
    (same : member.fixIjam = true → bitmaps member.bitmapKey = other member.bitmapKey)
    (compressed : Bool) (size : Nat) :
    memberFont (collectedFaces tools shaperResult bitmaps) compressed size member =
      memberFont (collectedFaces tools shaperResult other) compressed size member := by
  cases ijam : member.fixIjam with
  | false => rw [memberFont_plain ijam, memberFont_plain ijam]
  | true => rw [memberFont_ijam ijam, memberFont_ijam ijam, same ijam]

theorem composedPfo_collected {shaper hebrew : MergeMember} (plain : hebrew.fixIjam = false)
    {bitmaps other : BitmapKey → FontGen.BitmapDir}
    (same : shaper.fixIjam = true → bitmaps shaper.bitmapKey = other shaper.bitmapKey)
    (input : List UInt8) (size : Nat) :
    composedPfo tools.cptOrder tools.glyphOrder (collectedFaces tools shaperResult bitmaps)
        shaperResult.mapTf input size [shaper, hebrew] =
      composedPfo tools.cptOrder tools.glyphOrder (collectedFaces tools shaperResult other)
        shaperResult.mapTf input size [shaper, hebrew] := by
  have sources (bitmaps : BitmapKey → FontGen.BitmapDir) (member : MergeMember) :
      memberSources (collectedFaces tools shaperResult bitmaps) shaperResult.mapTf member =
        memberSources tools.faces shaperResult.mapTf member := rfl
  simp only [composedPfo, List.mapM_cons, List.mapM_nil, sources]
  rw [memberFont_collected same, memberFont_plain plain, memberFont_plain plain]

variable (mapping : OneMapping tools subset shaperResult)

include mapping in
/-- `compose_font` on a file, beside settled bitmaps.  Without a template nothing is done. -/
theorem composeFont_settled {sizeShiftKey : String}
    (known : sizeShiftKey ∈ Generator.sizeShiftKeys)
    (made : ∀ found, state.shaperResult = some found → found = shaperResult)
    (settled : AllSettled tools shaperResult state.bitmaps) {file : File}
    (run : composeFont tools subset sizeShiftKey file state = .ok () after) :
    AllSettled tools shaperResult after.bitmaps ∧
      ((shaperTtf file = none ∧ after = state ∧
          (composedFont tools shaperResult sizeShiftKey file).toOption = none) ∨
        ∃ ttfPath between, shaperTtf file = some ttfPath ∧
          Shaped tools subset ttfPath state shaperResult between ∧
          after = { between with
            bitmaps := after.bitmaps
            outDir := addComposed tools shaperResult sizeShiftKey state.outDir file }) := by
  obtain ⟨key, keyRun, outcome⟩ := composeFont_ok run
  rw [shaperTtf_eq known keyRun]
  rcases outcome with ⟨e, chosen, rfl⟩ | ⟨shaper, hebrew, result, chosen, fontRun⟩
  · refine ⟨settled, Or.inl ⟨by rw [chosen]; rfl, rfl, ?_⟩⟩
    simp only [composedFont, keyRun, chosen, bind, Except.bind]
    rfl
  · obtain ⟨between, ready, shaped, ⟨shaperPfo, pfoRun⟩, afterEq⟩ := fontRun.shaped
    obtain rfl := Shaped.same mapping made shaped
    obtain ⟨first, second, pair, withShaper, without, -, plain⟩ :=
      selectTemplate_ok (templateFor_ok chosen)
    obtain ⟨rfl, rfl⟩ : shaper = first ∧ hebrew = second := by simpa using pair
    have betweenSettled : AllSettled tools result between.bitmaps := by
      rw [shaped.bitmaps_eq]
      exact settled
    have readyBitmaps : AllSettled tools result ready.bitmaps ∧ (shaper.fixIjam = true →
        ready.bitmaps shaper.bitmapKey = finishedBitmaps tools result shaper.bitmapKey) := by
      cases ijam : shaper.fixIjam with
      | false =>
          rw [memberPfo_plain ijam] at pfoRun
          cases pfoRun
          exact ⟨betweenSettled, fun thick => nomatch thick⟩
      | true =>
          have thick := mem_thickMembers chosen List.mem_cons_self ijam
          have packs := mapping.packs key sizeShiftKey _ chosen shaper List.mem_cons_self ijam
            (isCompressed file.2)
          obtain ⟨-, -, rfl⟩ :=
            (memberPfo_settled packs ijam (betweenSettled.settled thick)).mp pfoRun
          refine ⟨betweenSettled.store thick, fun _ => ?_⟩
          rw [ComposeState.storeBitmaps_self, finishedBitmaps_bitmapKey thick]
    have bitmapsEq : after.bitmaps = ready.bitmaps := by rw [afterEq]
    rw [bitmapsEq]
    refine ⟨readyBitmaps.1, Or.inr ⟨shaper.ttfPath, between, by rw [chosen]; rfl, shaped, ?_⟩⟩
    have composed : composedFont tools result sizeShiftKey file =
        composedPfo tools.cptOrder tools.glyphOrder
          (collectedFaces tools result (finishedBitmaps tools result)) result.mapTf file.2
          key.1.toNat [shaper, hebrew] := by
      simp only [composedFont, keyRun, chosen, bind, Except.bind]
    have written := fontRun.outDir
    rw [bitmapsEq, composedPfo_collected plain readyBitmaps.2, ← composed] at written
    rw [afterEq, written, (memberPfo_ok pfoRun).1]
    rfl

/-! ### All fonts -/

/-- The files that are composed, in their order. -/
def candidates (tools : Tools) (inDir : List Char) (inFiles : Directory) : List File :=
  (inFiles.glob tools.listing (Directory.endsWith ".pfo".toList)).filter fun file =>
    !blacklisted inDir file.1

/-- The state when some files are composed.  The shaper has been run for the first of them that has
a template. -/
structure AllComposed (tools : Tools) (subset : Subset) (shaperResult : ShaperResult)
    (sizeShiftKey : String) (lut : Option ShaperTables) (done : List File) (state : ComposeState) :
    Prop where
  settled : AllSettled tools shaperResult state.bitmaps
  outDir : state.outDir = done.foldl (addComposed tools shaperResult sizeShiftKey) []
  shaped : (done.findSome? shaperTtf = none ∧ state.shaperResult = none ∧ state.lut = lut ∧
      state.outDir = []) ∨
    ∃ ttfPath tables, done.findSome? shaperTtf = some ttfPath ∧
      textShaper tools.unicodedataName (tools.hbFont ttfPath) subset =
        .ok (tables, shaperResult) ∧
      state.shaperResult = some shaperResult ∧ state.lut = some tables

theorem AllComposed.known {sizeShiftKey : String} {lut : Option ShaperTables} {done : List File}
    (all : AllComposed tools subset shaperResult sizeShiftKey lut done state) :
    ∀ found, state.shaperResult = some found → found = shaperResult := by
  intro found present
  rcases all.shaped with ⟨-, missing, -⟩ | ⟨-, -, -, -, made, -⟩
  · rw [missing] at present
    cases present
  · exact Option.some.inj (present.symm.trans made)

include mapping in
theorem AllComposed.step {sizeShiftKey : String} (known : sizeShiftKey ∈ Generator.sizeShiftKeys)
    {lut : Option ShaperTables} {done : List File}
    (all : AllComposed tools subset shaperResult sizeShiftKey lut done state) {file : File}
    (run : composeFont tools subset sizeShiftKey file state = .ok () after) :
    AllComposed tools subset shaperResult sizeShiftKey lut (done ++ [file]) after := by
  have folds : (done ++ [file]).foldl (addComposed tools shaperResult sizeShiftKey) [] =
      addComposed tools shaperResult sizeShiftKey
        (done.foldl (addComposed tools shaperResult sizeShiftKey) []) file := by
    rw [List.foldl_append, List.foldl_cons, List.foldl_nil]
  have ttfs : (done ++ [file]).findSome? shaperTtf =
      (done.findSome? shaperTtf).or (shaperTtf file) := by
    rw [List.findSome?_append, List.findSome?_cons, List.findSome?_nil]
    cases shaperTtf file <;> rfl
  obtain ⟨settled, ⟨noTtf, rfl, notComposed⟩ | ⟨ttfPath, between, ttf, shaped, afterEq⟩⟩ :=
    composeFont_settled mapping known all.known all.settled run
  · -- nothing is done for the file
    refine ⟨settled, ?_, ?_⟩
    · rw [folds, addComposed, notComposed, ← all.outDir]
      rfl
    · rw [ttfs, noTtf, Option.or_none]
      exact all.shaped
  · refine ⟨settled, ?_, Or.inr ?_⟩
    · rw [folds, ← all.outDir, afterEq]
    · rw [ttfs, ttf, afterEq]
      rcases all.shaped with ⟨noTtf, missing, -⟩ | ⟨first, tables, firstTtf, shapes, made, lutEq⟩
      · rw [noTtf]
        rcases shaped with ⟨found, -⟩ | ⟨-, tables, shapes, rfl⟩
        · rw [missing] at found
          cases found
        · exact ⟨ttfPath, tables, rfl, shapes, rfl, rfl⟩
      · rw [firstTtf]
        rcases shaped with ⟨-, rfl⟩ | ⟨missing, -⟩
        · exact ⟨first, tables, rfl, shapes, made, lutEq⟩
        · rw [missing] at made
          cases made

include mapping in
theorem main_ok {inDir : List Char} {inFiles : Directory} {sizeShiftKey : String}
    (known : sizeShiftKey ∈ Generator.sizeShiftKeys) {lut : Option ShaperTables}
    {bitmaps : BitmapKey → FontGen.BitmapDir} (settled : AllSettled tools shaperResult bitmaps)
    (run : main tools inDir inFiles subset sizeShiftKey ⟨none, lut, bitmaps, []⟩ = .ok () after) :
    AllComposed tools subset shaperResult sizeShiftKey lut (candidates tools inDir inFiles)
      after := by
  have mainEq : main tools inDir inFiles subset sizeShiftKey =
      (candidates tools inDir inFiles).forM (composeFont tools subset sizeShiftKey) :=
    forM_skip (fun file : File => blacklisted inDir file.1) (composeFont tools subset sizeShiftKey)
      (inFiles.glob tools.listing (Directory.endsWith ".pfo".toList))
  rw [mainEq] at run
  have start : AllComposed tools subset shaperResult sizeShiftKey lut [] ⟨none, lut, bitmaps, []⟩ :=
    ⟨settled, rfl, Or.inl ⟨rfl, rfl, rfl, rfl⟩⟩
  exact forM_keeps (fun _ _ _ _ all step => all.step mapping known step) start run

end FontCompose

/-! ## Resources of a pack -/

namespace ResourcePack

/-- Some data is a resource of a pack with a table of this size. -/
def HoldsResource (pbpack : List UInt8) (limit resid : Nat) (data : List UInt8) : Prop :=
  ∃ entries, readTable pbpack = .ok entries ∧ ∃ entry ∈ entries, entry.resid = resid ∧
    entry.crc = crc32 data ∧
    slice pbpack (offsetTableOffset + limit * 16 + entry.offset)
      (offsetTableOffset + limit * 16 + entry.offset + entry.size) = data

theorem packL_ok {value : Nat} {bytes : List UInt8} (run : packL value = .ok bytes) :
    value < 4294967296 ∧ bytes = encodeL value := by
  rw [packL_natCast] at run
  split at run
  next small =>
    cases run
    exact ⟨small, rfl⟩
  next => cases run

theorem packEntry_ok {entry : Entry} {bytes : List UInt8}
    (run : packEntry entry.resid entry.offset entry.size entry.crc = .ok bytes) :
    entry.Fits ∧ bytes = entry.encode := by
  unfold packEntry at run
  obtain ⟨resid, residRun, run⟩ := bind_ok run
  obtain ⟨offset, offsetRun, run⟩ := bind_ok run
  obtain ⟨size, sizeRun, run⟩ := bind_ok run
  obtain ⟨crc, crcRun, run⟩ := bind_ok run
  obtain ⟨residSmall, rfl⟩ := packL_ok residRun
  obtain ⟨offsetSmall, rfl⟩ := packL_ok offsetRun
  obtain ⟨sizeSmall, rfl⟩ := packL_ok sizeRun
  obtain ⟨crcSmall, rfl⟩ := packL_ok crcRun
  cases run
  exact ⟨⟨residSmall, offsetSmall, sizeSmall, crcSmall⟩, rfl⟩

variable {done : List (Nat × Option (List UInt8))} {contents : List (List UInt8)}
  {state after : PackState}

/-- A resource that is added fits into the table. -/
theorem Packed.addResource_run (packed : Packed done contents state)
    {resource : Nat × Option (List UInt8)} (run : addResource state resource = .ok after) :
    ∃ contents', Packed (done ++ [resource]) contents' after ∧
      (entryOf contents' resource).Fits ∧
      ∀ other ∈ done, entryOf contents' other = entryOf contents other := by
  obtain ⟨contents', placed, placeEq, nodup, mem_iff, offsets, length, dataEq, lookupEq, tableEq⟩ :=
    packed.place (contentsOf resource)
  simp only [addResource, placeEq] at run
  obtain ⟨bytes, entryRun, run⟩ := bind_ok run
  obtain ⟨fits, rfl⟩ := packEntry_ok (show packEntry (entryOf contents' resource).resid
    (entryOf contents' resource).offset (entryOf contents' resource).size
    (entryOf contents' resource).crc = .ok bytes from entryRun)
  cases run
  have same : ∀ other ∈ done, entryOf contents' other = entryOf contents other := by
    intro other member
    rw [entryOf, entryOf, offsets _ ((packed.mem_iff _).mpr (List.mem_map_of_mem member))]
  have bounded := packed.bounded
  refine ⟨contents', ⟨nodup, ?_, ?_, dataEq, lookupEq, ?_⟩, fits, same⟩
  · intro data
    rw [mem_iff, packed.mem_iff, List.map_append, List.mem_append, List.map_singleton,
      List.mem_singleton]
  · rw [List.map_append, List.sum_append, List.map_singleton, List.sum_singleton]
    omega
  · have table : done.flatMap (fun resource => (entryOf contents' resource).encode) =
        done.flatMap fun resource => (entryOf contents resource).encode :=
      List.flatMap_congr fun other member => congrArg Entry.encode (same other member)
    rw [List.flatMap_append, table, ← packed.table_eq, ← tableEq, List.flatMap_singleton]

theorem Packed.foldlM_run (packed : Packed done contents state)
    (fits : ∀ resource ∈ done, (entryOf contents resource).Fits)
    {later : List (Nat × Option (List UInt8))}
    (run : later.foldlM addResource state = .ok after) :
    ∃ contents', Packed (done ++ later) contents' after ∧
      ∀ resource ∈ done ++ later, (entryOf contents' resource).Fits := by
  induction later generalizing done contents state with
  | nil =>
      cases run
      rw [List.append_nil]
      exact ⟨contents, packed, fits⟩
  | cons resource later ih =>
      rw [List.foldlM_cons] at run
      obtain ⟨between, step, run⟩ := bind_ok run
      obtain ⟨contents', packed', new, same⟩ := packed.addResource_run step
      rw [List.append_cons]
      refine ih packed' (fun other member => ?_) run
      rcases List.mem_append.mp member with old | last
      · rw [same other old]
        exact fits other old
      · rw [List.mem_singleton.mp last]
        exact new

/-- A pack that is written has a table in the order of the ids, and holds every resource. -/
theorem packResources_holds {resmap : List (Nat × Option (List UInt8))} {limit : Nat}
    (limitSmall : limit < 4294967296) {pbpack : List UInt8}
    (run : packResources resmap limit = .ok pbpack) :
    ∃ entries, readTable pbpack = .ok entries ∧
      entries.map Entry.resid = (sortResources resmap).map Prod.fst ∧
      ∀ resource ∈ resmap, HoldsResource pbpack limit resource.1 (contentsOf resource) := by
  obtain ⟨state, fold, -⟩ := bind_ok run
  obtain ⟨contents, packed, fits⟩ := Packed.start.foldlM_run (by simp) fold
  rw [List.nil_append] at packed fits
  rw [packResources_eq fold packed limitSmall] at run
  by_cases few : resmap.length ≤ limit
  · rw [if_pos few] at run
    cases run
    have count : ((sortResources resmap).map (entryOf contents)).length ≤ limit := by
      rw [List.length_map, (sortResources_perm resmap).length_eq]
      exact few
    have table := @readTable_pbpackFile limit _ (Nat.lt_of_le_of_lt count limitSmall)
      (by
        intro entry member
        obtain ⟨resource, inResources, rfl⟩ := List.mem_map.mp member
        exact fits resource inResources) contents
    refine ⟨_, table, ?_, fun resource member => ?_⟩
    · rw [List.map_map]
      rfl
    · have inSorted := (sortResources_perm resmap).mem_iff.mpr member
      refine ⟨_, table, entryOf contents resource, List.mem_map_of_mem inSorted, rfl, rfl, ?_⟩
      have stored := (packed.mem_iff _).mpr (List.mem_map_of_mem inSorted)
      rw [slice_eq_take_drop, ← List.drop_drop, drop_table count]
      exact take_drop_flatten stored
  · rw [if_neg few] at run
    cases run

theorem length_resourceName (resid : Nat) :
    (resourceName resid).length = max 3 (Nat.digits 10 resid).length := by
  simp [resourceName]
  omega

/-- A name of three digits begins with no other name. -/
theorem eq_of_resourceName_isPrefix {resid other : Nat}
    (starts : resourceName resid <+: resourceName other) : other = resid ∨ 1000 ≤ other := by
  by_contra both
  rw [not_or, not_le] at both
  have digits : (Nat.digits 10 other).length ≤ 3 := by
    rw [Nat.digits_length_le_iff (by norm_num)]
    omega
  have lengths := starts.length_le
  rw [length_resourceName, length_resourceName] at lengths
  have same := starts.eq_of_length (by
    rw [length_resourceName, length_resourceName]
    omega)
  exact both.1 (resourceName_injective same).symm

/-- No name of a resource is hidden. -/
theorem head_resourceName (resid : Nat) : (resourceName resid).head? ≠ some '.' := by
  intro hidden
  have member := List.mem_of_mem_head? hidden
  rw [resourceName, List.mem_reverse, List.mem_map] at member
  obtain ⟨d, inDigits, dot⟩ := member
  have small : d < 10 := by
    rcases List.mem_append.mp inDigits with digit | zero
    · exact Nat.digits_lt_base (by norm_num) digit
    · rw [List.eq_of_mem_replicate zero]
      norm_num
  interval_cases d <;> cases dot

end ResourcePack

/-! ## The fonts in a directory -/

namespace FontCompose

variable {tools : Tools} {shaperResult : ShaperResult} {sizeShiftKey : String}

theorem addComposed_cases (tools : Tools) (shaperResult : ShaperResult) (sizeShiftKey : String)
    (dir : Directory) (src : File) :
    (∃ pfo, composedFont tools shaperResult sizeShiftKey src = .ok pfo ∧
        addComposed tools shaperResult sizeShiftKey dir src = dir.write src.1 pfo) ∨
      (∀ pfo, composedFont tools shaperResult sizeShiftKey src ≠ .ok pfo) ∧
        addComposed tools shaperResult sizeShiftKey dir src = dir := by
  unfold addComposed
  cases composedFont tools shaperResult sizeShiftKey src with
  | ok pfo => exact Or.inl ⟨pfo, rfl, rfl⟩
  | error e =>
      refine Or.inr ⟨?_, rfl⟩
      rintro pfo ⟨⟩

/-- Every file in the directory is composed from a file of its name. -/
theorem mem_foldl_addComposed {sources : List File} {dir : Directory} {file : File}
    (member : file ∈ sources.foldl (addComposed tools shaperResult sizeShiftKey) dir) :
    file ∈ dir ∨ ∃ src ∈ sources, src.1 = file.1 ∧
      composedFont tools shaperResult sizeShiftKey src = .ok file.2 := by
  induction sources generalizing dir with
  | nil => exact Or.inl member
  | cons src sources ih =>
      rcases ih member with inDir | ⟨other, inSources, composed⟩
      · rcases addComposed_cases tools shaperResult sizeShiftKey dir src with
          ⟨pfo, composed, added⟩ | ⟨-, same⟩
        · rw [added] at inDir
          rcases Folder.mem_of_mem_write inDir with rfl | old
          · exact Or.inr ⟨src, List.mem_cons_self, rfl, composed⟩
          · exact Or.inl old
        · rw [same] at inDir
          exact Or.inl inDir
      · exact Or.inr ⟨other, List.mem_cons_of_mem _ inSources, composed⟩

/-- Every file that can be composed has its name in the directory. -/
theorem mem_names_foldl_addComposed {sources : List File} {dir : Directory} {name : List Char}
    (present : name ∈ dir.map Prod.fst ∨ ∃ src ∈ sources, src.1 = name ∧ ∃ pfo,
      composedFont tools shaperResult sizeShiftKey src = .ok pfo) :
    name ∈ (sources.foldl (addComposed tools shaperResult sizeShiftKey) dir).map Prod.fst := by
  induction sources generalizing dir with
  | nil =>
      rcases present with inDir | ⟨src, none, -⟩
      · exact inDir
      · cases none
  | cons src sources ih =>
      apply ih
      rcases addComposed_cases tools shaperResult sizeShiftKey dir src with
        ⟨pfo, composed, added⟩ | ⟨never, same⟩
      · rw [added, Folder.mem_names_write]
        rcases present with inDir | ⟨other, inSources, nameEq, composes⟩
        · exact Or.inl (Or.inr inDir)
        · rcases List.mem_cons.mp inSources with rfl | later
          · exact Or.inl (Or.inl nameEq.symm)
          · exact Or.inr ⟨other, later, nameEq, composes⟩
      · rw [same]
        rcases present with inDir | ⟨other, inSources, nameEq, pfo, composes⟩
        · exact Or.inl inDir
        · rcases List.mem_cons.mp inSources with rfl | later
          · exact absurd composes (never pfo)
          · exact Or.inr ⟨other, later, nameEq, pfo, composes⟩

theorem mem_candidates {inDir : List Char} {inFiles : Directory} {file : File} :
    file ∈ candidates tools inDir inFiles ↔ file ∈ inFiles ∧
      Directory.endsWith ".pfo".toList file.1 = true ∧ blacklisted inDir file.1 = false := by
  rw [candidates, List.mem_filter, Folder.mem_glob, and_assoc, Bool.not_eq_true']

end FontCompose

namespace Generator

open ResourcePack FontCompose

variable {machine : Machine} {key : FwKey}

/-! ## Slots of a language pack -/

/-- A slot has a font that is composed from one of the fonts with the name of the slot, or nothing
if there is none. -/
def FontSlot (machine : Machine) (key : FwKey) (sizeShiftKey : String) (fonts : Directory)
    (shaperResult : ShaperResult) (font : List Char) (data : List UInt8) : Prop :=
  (∃ file ∈ fonts, font <:+: file.1 ∧ blacklisted (systemFontsPath key) file.1 = false ∧
      composedFont machine.toTools shaperResult sizeShiftKey file = .ok data) ∨
    data = [] ∧ ∀ file ∈ fonts, font <:+: file.1 →
      blacklisted (systemFontsPath key) file.1 = false →
      ∀ pfo, composedFont machine.toTools shaperResult sizeShiftKey file ≠ .ok pfo

/-- A pack has the translation and the slots for the fonts, with the ids that are determined for
them.  The slots for fonts that are not composed are empty. -/
structure LanguagePack (machine : Machine) (key : FwKey) (sizeShiftKey : String)
    (fonts : Directory) (shaperResult : ShaperResult) (pbl : List UInt8) : Prop where
  ids : ∃ entries, readTable pbl = .ok entries ∧ entries.map Entry.resid = List.range' 1 19
  translation : HoldsResource pbl 256 1 machine.translation
  slot : ∀ i font, fontSeq[i]? = some font → ∃ data, HoldsResource pbl 256 (i + 2) data ∧
    FontSlot machine key sizeShiftKey fonts shaperResult font data
  emptySlot : ∀ i font, fontSeq[i]? = some font → (∃ word ∈ blacklist, word <:+: font) →
    HoldsResource pbl 256 (i + 2) []

/-- A file of the firmware's fonts is a copy of a resource, under the name that the table of the
image has for its id.  A resource is found by the digits of its id, of which longer ones begin with
shorter ones. -/
structure SystemFont (machine : Machine) (key : FwKey) (file : File) : Prop where
  origin : ∃ table, FindSystemFonts.extractSystemFontResourceIds (machine.firmware key).tintinFw =
    .ok table ∧ ∃ item ∈ table, file.1 = FindSystemFonts.pfoName item.2 item.1 ∧
      ∃ entries, readTable (machine.firmware key).systemResources = .ok entries ∧
        ∃ entry ∈ entries, (entry.resid = item.2 ∨ 1000 ≤ entry.resid) ∧
          file.2 = slice (machine.firmware key).systemResources
            (offsetTableOffset + maxResources * 16 + entry.offset)
            (offsetTableOffset + maxResources * 16 + entry.offset + entry.size)

/-- The fonts of the firmware.  Every name of the table has a font, but for the fallback ones. -/
structure SystemFonts (machine : Machine) (key : FwKey) (fonts : Directory) : Prop where
  sound : ∀ file ∈ fonts, SystemFont machine key file
  complete : ∀ table, FindSystemFonts.extractSystemFontResourceIds
      (machine.firmware key).tintinFw = .ok table → ∀ item ∈ table,
    ¬ "FALLBACK_INTERNAL".toList <:+: FindSystemFonts.nameChars item.1 →
    FindSystemFonts.pfoName item.2 item.1 ∈ fonts.map Prod.fst

theorem SystemFont.isPfo {file : File} (systemFont : SystemFont machine key file) :
    Directory.endsWith ".pfo".toList file.1 = true := by
  obtain ⟨table, -, item, -, name, -⟩ := systemFont.origin
  have visible : (FindSystemFonts.pfoName item.2 item.1).head? ≠ some '.' := by
    have head := head_resourceName item.2
    have long : resourceName item.2 ≠ [] := by
      intro empty
      have lengths := length_resourceName item.2
      rw [empty, List.length_nil] at lengths
      omega
    rw [FindSystemFonts.pfoName, List.head?_append_of_ne_nil _ long]
    exact head
  have suffix : ".pfo".toList <:+ FindSystemFonts.pfoName item.2 item.1 := by
    rw [FindSystemFonts.pfoName, List.append_cons, ← List.append_assoc]
    exact List.suffix_append _ _
  rw [Directory.endsWith, name, Bool.and_eq_true, decide_eq_true_eq, List.isSuffixOf_iff_suffix]
  exact ⟨visible, suffix⟩

/-- A file that unpacking has written is one of those it was to write. -/
theorem mem_of_mem_unpackedFiles {files : List File} {file : File}
    (member : file ∈ unpackedFiles files) : file ∈ files := by
  have written : ∀ (later : List File) (dir : Directory), file ∈ later.foldl
      (fun dir file => Folder.write dir file.1 file.2) dir → file ∈ dir ∨ file ∈ later := by
    intro later
    induction later with
    | nil => exact fun dir inDir => Or.inl inDir
    | cons first later ih =>
        intro dir inDir
        rcases ih _ inDir with inFirst | inLater
        · rcases Folder.mem_of_mem_write inFirst with rfl | old
          · exact Or.inr List.mem_cons_self
          · exact Or.inl old
        · exact Or.inr (List.mem_cons_of_mem _ inLater)
  exact (written files [] member).resolve_left List.not_mem_nil

/-- The fonts that are extracted are the fonts of the firmware. -/
theorem systemFonts_of_main {files fonts : Directory}
    (unpack : unpackResources (machine.firmware key).systemResources = .ok files)
    (copy : FindSystemFonts.main machine.itemOrder machine.listing (machine.firmware key).tintinFw
      (unpackedFiles files) [] = .ok () fonts) : SystemFonts machine key fonts := by
  obtain ⟨table, extract, all⟩ := FindSystemFonts.main_ok copy
  refine ⟨fun file member => ?_, fun other extract' => ?_⟩
  · obtain ⟨item, inTable, copied⟩ := all.sound file member
    obtain ⟨src, inUnpacked, starts, contents⟩ := copied.contents
    have inFiles := mem_of_mem_unpackedFiles inUnpacked
    obtain ⟨entries, read, mapped⟩ := bind_ok unpack
    cases mapped
    obtain ⟨entry, inEntries, rfl⟩ := List.mem_map.mp inFiles
    rw [Directory.startsWith, List.isPrefixOf_iff_prefix] at starts
    exact ⟨⟨table, extract, item, inTable, copied.name, entries, read, entry, inEntries,
      eq_of_resourceName_isPrefix starts, contents⟩⟩
  · obtain rfl := Except.ok.inj (extract.symm.trans extract')
    exact all.complete

variable {sizeShiftKey : String} {fonts : Directory} {shaperResult : ShaperResult}

/-- The fonts that are composed for a size. -/
def composedFonts (machine : Machine) (key : FwKey) (sizeShiftKey : String) (fonts : Directory)
    (shaperResult : ShaperResult) : Directory :=
  (candidates machine.toTools (systemFontsPath key) fonts).foldl
    (addComposed machine.toTools shaperResult sizeShiftKey) []

/-- The file that is found for a slot. -/
theorem fontSlot_fontMatch (system : ∀ file ∈ fonts, SystemFont machine key file)
    (font : List Char) :
    FontSlot machine key sizeShiftKey fonts shaperResult font ((fontMatch machine.listing
      (composedFonts machine key sizeShiftKey fonts shaperResult) font).getD []) := by
  cases found : ((composedFonts machine key sizeShiftKey fonts shaperResult).glob machine.listing
      (Directory.hasPart font)).head? with
  | some file =>
      obtain ⟨inDir, part⟩ := Folder.mem_glob.mp (List.mem_of_mem_head? found)
      rw [Directory.hasPart, Bool.and_eq_true, decide_eq_true_eq, decide_eq_true_eq] at part
      obtain ⟨src, inSources, nameEq, composed⟩ :=
        (mem_foldl_addComposed inDir).resolve_left List.not_mem_nil
      obtain ⟨inFonts, -, allowed⟩ := mem_candidates.mp inSources
      rw [fontMatch, found]
      exact Or.inl ⟨src, inFonts, nameEq ▸ part.2, allowed, composed⟩
  | none =>
      rw [fontMatch, found]
      refine Or.inr ⟨rfl, fun file inFonts part allowed pfo composed => ?_⟩
      have isPfo := (system file inFonts).isPfo
      have inSources : file ∈ candidates machine.toTools (systemFontsPath key) fonts :=
        mem_candidates.mpr ⟨inFonts, isPfo, allowed⟩
      have inNames : file.1 ∈ (composedFonts machine key sizeShiftKey fonts shaperResult).map
          Prod.fst :=
        mem_names_foldl_addComposed (Or.inr ⟨file, inSources, rfl, pfo, composed⟩)
      obtain ⟨written, inDir, nameEq⟩ := List.mem_map.mp inNames
      rw [Directory.endsWith, Bool.and_eq_true] at isPfo
      have isMatch : Directory.hasPart font written.1 = true := by
        rw [nameEq, Directory.hasPart, Bool.and_eq_true, decide_eq_true_eq (p := font <:+: file.1)]
        exact ⟨isPfo.1, part⟩
      have inGlob : written ∈ (composedFonts machine key sizeShiftKey fonts shaperResult).glob
          machine.listing (Directory.hasPart font) :=
        Folder.mem_glob.mpr ⟨inDir, isMatch⟩
      rw [List.head?_eq_none_iff.mp found] at inGlob
      cases inGlob

theorem langpackResmap_ids (fontsDir : Directory) :
    (langpackResmap machine fontsDir).map Prod.fst = List.range' 1 19 := by
  rw [langpackResmap, List.map_cons, List.map_map]
  rfl

/-- A font with a word of the blacklist is not composed. -/
theorem blacklisted_of_part {font : List Char} {word : List Char} (listed : word ∈ blacklist)
    (inFont : word <:+: font) {inDir name : List Char} (part : font <:+: name) :
    blacklisted inDir name = true := by
  rw [blacklisted, List.any_eq_true]
  refine ⟨word, listed, decide_eq_true ?_⟩
  have inPath : name <:+: inDir ++ '/' :: name :=
    ((List.suffix_cons '/' name).trans (List.suffix_append inDir _)).isInfix
  exact (inFont.trans part).trans inPath

theorem generateLangpack_ok (system : ∀ file ∈ fonts, SystemFont machine key file)
    {pbl : List UInt8} (run : generateLangpack machine
      (composedFonts machine key sizeShiftKey fonts shaperResult) = .ok pbl) :
    LanguagePack machine key sizeShiftKey fonts shaperResult pbl := by
  obtain ⟨entries, read, ids, holds⟩ := packResources_holds (by norm_num) run
  have slots (i : Nat) (font : List Char) (inSeq : fontSeq[i]? = some font) :
      HoldsResource pbl 256 (i + 2) ((fontMatch machine.listing
        (composedFonts machine key sizeShiftKey fonts shaperResult) font).getD []) := by
    refine holds (i + 2, _) (List.mem_cons_of_mem _ ?_)
    exact List.mem_map.mpr ⟨(font, i), List.mem_zipIdx_iff_getElem?.mpr inSeq, rfl⟩
  refine ⟨⟨entries, read, ?_⟩, ?_, fun i font inSeq => ?_, fun i font inSeq listed => ?_⟩
  · have sorted : (langpackResmap machine
        (composedFonts machine key sizeShiftKey fonts shaperResult)).Pairwise
          fun a b => a.1 ≤ b.1 := by
      rw [← List.pairwise_map (f := Prod.fst) (R := (· ≤ ·)), langpackResmap_ids]
      decide
    rw [ids, sortResources, sorted.insertionSort_eq, langpackResmap_ids]
  · exact holds _ List.mem_cons_self
  · exact ⟨_, slots i font inSeq, fontSlot_fontMatch system font⟩
  · obtain ⟨word, inList, inFont⟩ := listed
    have slot := slots i font inSeq
    rcases fontSlot_fontMatch system font with ⟨file, -, part, allowed, -⟩ | ⟨empty, -⟩
    · rw [blacklisted_of_part inList inFont part] at allowed
      cases allowed
    · rw [empty] at slot
      exact slot

/-! ## All sizes -/

/-- The font whose glyphs the shaper maps. -/
def firstTtf (machine : Machine) (key : FwKey) (fonts : Directory) : Option TtfPath :=
  (candidates machine.toTools (systemFontsPath key) fonts).findSome? shaperTtf

/-- The packs that are made, and the tables that are there when they are.  All of them come from
one run of the shaper, if it was run. -/
def OneShaper (machine : Machine) (key : FwKey) (shaperResult : ShaperResult) (fonts : Directory)
    (done : List String) (pbls : List (List UInt8)) (lut : Option ShaperTables) : Prop :=
  (lut = none ∧ (done = [] ∧ pbls = [] ∨ firstTtf machine key fonts = none)) ∨
    ∃ ttfPath tables, firstTtf machine key fonts = some ttfPath ∧
      textShaper machine.unicodedataName (machine.hbFont ttfPath)
        (platformSubsetMap (hwRevPlatformMap key.2)) = .ok (tables, shaperResult) ∧
      lut = some tables ∧
      List.Forall₂ (fun sizeShiftKey pbl =>
        LanguagePack machine key sizeShiftKey fonts shaperResult pbl) done pbls

/-- The cache when the fonts are extracted and some packs are made. -/
structure Extracted (machine : Machine) (key : FwKey) (shaperResult : ShaperResult)
    (fonts : Directory) (done : List String) (pbls : List (List UInt8)) (cache : Cache) : Prop where
  system : SystemFonts machine key fonts
  again : extractFonts machine key cache = .ok fonts cache
  unpatched : (cache.fwDirs key).patchedBin = none
  missing : ∀ other, other ∉ done → (cache.fwDirs key).generatedFonts other = none
  settled : AllSettled machine.toTools shaperResult cache.bitmaps
  shaper : OneShaper machine key shaperResult fonts done pbls cache.lut

theorem extracted_of_empty {after : Cache}
    (run : extractFonts machine key .empty = .ok fonts after) :
    Extracted machine key shaperResult fonts [] [] after := by
  have again := (extractFonts_memoized machine key _ _ _ run).2 after (Cache.Le.refl key after)
  obtain ⟨resources, between, unpackRun, run⟩ := bind_eq_ok.mp run
  obtain ⟨files, unpack, rfl, rfl⟩ := unpackSystemResources_ok rfl unpackRun
  have noFonts : (((Cache.empty.modifyDir key fun dir =>
      { dir with systemResources := some (unpackedFiles files) }).fwDirs key).systemFonts) =
        none := by
    rw [Cache.modifyDir_self]
    rfl
  obtain ⟨state, copy, rfl, rfl⟩ := subprocess_ok (cached_run run noFonts)
  refine ⟨systemFonts_of_main unpack copy, again, ?_, ?_, fun _ => Or.inl rfl,
    Or.inl ⟨rfl, Or.inl ⟨rfl, rfl⟩⟩⟩
  · rw [Cache.modifyDir_self, Cache.modifyDir_self]
    rfl
  · intro other _
    rw [Cache.modifyDir_self, Cache.modifyDir_self]
    rfl

section Mapping

variable (mapping : OneMapping machine.toTools (platformSubsetMap (hwRevPlatformMap key.2))
  shaperResult)

include mapping

theorem Extracted.step {done : List String} {pbls : List (List UInt8)} {cache after : Cache}
    (extracted : Extracted machine key shaperResult fonts done pbls cache)
    (known : sizeShiftKey ∈ sizeShiftKeys) (new : sizeShiftKey ∉ done) {fontsDir : Directory}
    (run : generateFonts machine key fonts (platformSubsetMap (hwRevPlatformMap key.2))
      sizeShiftKey cache = .ok fontsDir after) {pbl : List UInt8}
    (pack : generateLangpack machine fontsDir = .ok pbl) :
    Extracted machine key shaperResult fonts (done ++ [sizeShiftKey]) (pbls ++ [pbl]) after := by
  have missing := extracted.missing sizeShiftKey new
  obtain ⟨state, composeRun, rfl, rfl⟩ := generateFonts_ok missing run
  have composed := FontCompose.main_ok mapping known extracted.settled composeRun
  refine ⟨extracted.system, ?_, ?_, ?_, composed.settled, ?_⟩
  · exact (extractFonts_memoized machine key _ _ _ extracted.again).2 _
      (storeFonts_le missing state)
  · rw [storeFonts_patchedBin]
    exact extracted.unpatched
  · intro other notDone
    rw [List.mem_append, List.mem_singleton, not_or] at notDone
    exact storeFonts_missing notDone.2 (extracted.missing other notDone.1) state
  · rw [composed.outDir] at pack
    have made := generateLangpack_ok extracted.system.sound pack
    rcases composed.shaped with ⟨noTtf, -, lutEq, -⟩ | ⟨ttfPath, tables, ttf, shapes, -, lutEq⟩
    · rcases extracted.shaper with ⟨noLut, -⟩ | ⟨ttfPath, -, ttf, -⟩
      · exact Or.inl ⟨lutEq.trans noLut, Or.inr noTtf⟩
      · rw [firstTtf, noTtf] at ttf
        cases ttf
    · refine Or.inr ⟨ttfPath, tables, ttf, shapes, lutEq, ?_⟩
      rcases extracted.shaper with ⟨-, ⟨rfl, rfl⟩ | noTtf⟩ | ⟨-, -, -, -, -, packs⟩
      · exact List.Forall₂.cons made List.Forall₂.nil
      · rw [firstTtf, ttf] at noTtf
        cases noTtf
      · exact List.rel_append packs (List.Forall₂.cons made List.Forall₂.nil)

/-- The cache when some packs are made. -/
def Progress (machine : Machine) (key : FwKey) (shaperResult : ShaperResult) (done : List String)
    (pbls : List (List UInt8)) (cache : Cache) : Prop :=
  (done = [] ∧ pbls = [] ∧ cache = .empty) ∨
    ∃ fonts, Extracted machine key shaperResult fonts done pbls cache

theorem Progress.step {done : List String} {pbls : List (List UInt8)} {cache after : Cache}
    (progress : Progress machine key shaperResult done pbls cache)
    (known : sizeShiftKey ∈ sizeShiftKeys) (new : sizeShiftKey ∉ done) {pbl : List UInt8}
    (run : generatePbl machine key sizeShiftKey cache = .ok pbl after) :
    Progress machine key shaperResult (done ++ [sizeShiftKey]) (pbls ++ [pbl]) after := by
  obtain ⟨fonts, between, extractRun, run⟩ := bind_eq_ok.mp run
  obtain ⟨fontsDir, between', composeRun, run⟩ := bind_eq_ok.mp run
  obtain ⟨pack, rfl⟩ := liftExcept_eq_ok.mp run
  rcases progress with ⟨rfl, rfl, rfl⟩ | ⟨earlier, extracted⟩
  · exact Or.inr ⟨fonts,
      (extracted_of_empty extractRun).step mapping known new composeRun pack⟩
  · rw [extracted.again] at extractRun
    cases extractRun
    exact Or.inr ⟨fonts, extracted.step mapping known new composeRun pack⟩

/-- What a run in an empty checkout builds. -/
theorem build_ok {after : Cache} {pbls : List (List UInt8)} {patched : List UInt8}
    (run : build machine key .empty = .ok (pbls, patched) after) :
    ∃ fonts ttfPath tables, SystemFonts machine key fonts ∧
      textShaper machine.unicodedataName (machine.hbFont ttfPath)
        (platformSubsetMap (hwRevPlatformMap key.2)) = .ok (tables, shaperResult) ∧
      machine.patch (hwRevPlatformMap key.2) (machine.firmware key).tintinFw
        (machine.libpebble key.1 (hwRevPlatformMap key.2)) tables = .ok patched ∧
      List.Forall₂ (fun sizeShiftKey pbl =>
        LanguagePack machine key sizeShiftKey fonts shaperResult pbl) sizeShiftKeys pbls := by
  obtain ⟨made, between, pblsRun, run⟩ := bind_eq_ok.mp run
  obtain ⟨patched', between', patchRun, run⟩ := bind_eq_ok.mp run
  obtain ⟨same, rfl⟩ := pure_eq_ok.mp run
  cases same
  have start : Progress machine key shaperResult [] [] .empty := Or.inl ⟨rfl, rfl, rfl⟩
  have distinct : sizeShiftKeys.Nodup := by decide
  have progress := mapM_keeps (fun done item later pbls pbl cache after split progress step => by
    have known : item ∈ sizeShiftKeys := by
      rw [split]
      exact List.mem_append_right _ List.mem_cons_self
    have new : item ∉ done := by
      rw [split, List.nodup_append] at distinct
      exact fun inDone => distinct.2.2 item inDone item List.mem_cons_self rfl
    exact Progress.step mapping progress known new step) start pblsRun
  rcases progress with ⟨none, -⟩ | ⟨fonts, extracted⟩
  · cases none
  · obtain ⟨tables, present, patch, -⟩ := patchFirmware_ok extracted.unpatched patchRun
    rcases extracted.shaper with ⟨noLut, -⟩ | ⟨ttfPath, tables', -, shapes, lut, packs⟩
    · rw [noLut] at present
      cases present
    · rw [lut] at present
      cases present
      exact ⟨fonts, ttfPath, tables, extracted.system, shapes, patch, packs⟩

end Mapping

end Generator

end Elbbep
