import Elbbep.ComposedFonts

/-!
# The members of a font

What `compose_font` does for the members of a template.  The shaper is run at most once.  A member
with thickened dots is drawn with the bitmaps that have been collected for it, and leaves all other
bitmaps as they are.
-/

namespace Elbbep

open PythonStruct PfoMerge FailingPrograms

namespace FontCompose

open FontGen (BitmapDir BitmapName GIndex)

/-- The faces with the glyphs that have been collected for members with thickened dots. -/
def collectedFaces (tools : Tools) (shaperResult : ShaperResult) (bitmaps : BitmapKey → BitmapDir) :
    Faces where
  chars := tools.faces.chars
  render := fun member =>
    if member.fixIjam then fun codepoint gindex =>
      (bitmaps member.bitmapKey).collected (memberNames tools shaperResult codepoint gindex)
        (tools.faces.render member codepoint gindex)
    else tools.faces.render member

variable {tools : Tools} {subset : Subset} {state after : ComposeState}
  {shaperResult : ShaperResult} {compressed : Bool} {size : Nat} {member : MergeMember}

theorem memberFont_ijam (ijam : member.fixIjam = true) (bitmaps : BitmapKey → BitmapDir) :
    memberFont (collectedFaces tools shaperResult bitmaps) compressed size member =
      (memberFont tools.faces compressed size member).collecting (memberNames tools shaperResult)
        (bitmaps member.bitmapKey) := by
  simp only [memberFont, collectedFaces, ijam]
  rfl

theorem memberFont_plain (plain : member.fixIjam = false) (bitmaps : BitmapKey → BitmapDir) :
    memberFont (collectedFaces tools shaperResult bitmaps) compressed size member =
      memberFont tools.faces compressed size member := by
  simp only [memberFont, collectedFaces, plain]
  rfl

theorem ComposeState.storeBitmaps_self (state : ComposeState) (member : MergeMember)
    (dir : BitmapDir) : (state.storeBitmaps member dir).bitmaps member.bitmapKey = dir :=
  Function.update_self ..

/-! ## The shaper -/

/-- The files that the members get, and the state when the shaper has been run for them. -/
def Shaped (tools : Tools) (subset : Subset) (ttfPath : TtfPath) (state : ComposeState)
    (shaperResult : ShaperResult) (after : ComposeState) : Prop :=
  (state.shaperResult = some shaperResult ∧ after = state) ∨
    state.shaperResult = none ∧ ∃ tables,
      textShaper tools.unicodedataName (tools.hbFont ttfPath) subset = .ok (tables, shaperResult) ∧
      after = { state with shaperResult := some shaperResult, lut := some tables }

theorem memberShaper_iff (withShaper : member.withShaper = true) :
    memberShaper tools subset member state = .ok shaperResult after ↔
      Shaped tools subset member.ttfPath state shaperResult after := by
  rw [memberShaper, if_pos withShaper, Shaped]
  constructor
  · intro run
    obtain ⟨found, between, first, run⟩ := bind_eq_ok.mp run
    cases first
    cases present : state.shaperResult with
    | some known =>
        simp only [present] at run
        obtain ⟨rfl, rfl⟩ := pure_eq_ok.mp run
        exact Or.inl ⟨rfl, rfl⟩
    | none =>
        cases shaped : textShaper tools.unicodedataName (tools.hbFont member.ttfPath) subset with
        | error e =>
            simp only [present, shaped] at run
            exact absurd run not_throw_eq_ok
        | ok result =>
            obtain ⟨tables, made⟩ := result
            simp only [present, shaped] at run
            obtain ⟨⟨⟩, between, store, run⟩ := bind_eq_ok.mp run
            obtain ⟨rfl, rfl⟩ := pure_eq_ok.mp run
            cases store
            exact Or.inr ⟨rfl, tables, rfl, rfl⟩
  · rintro (⟨present, rfl⟩ | ⟨missing, tables, shaped, rfl⟩)
    · refine bind_eq_ok.mpr ⟨_, _, rfl, ?_⟩
      simp only [present]
      rfl
    · refine bind_eq_ok.mpr ⟨_, _, rfl, ?_⟩
      simp only [missing, shaped]
      rfl

theorem memberShaper_without (without : member.withShaper = false) (state : ComposeState) :
    memberShaper tools subset member state = .ok ⟨[], []⟩ state := by
  rw [memberShaper, if_neg (by rw [without]; exact Bool.false_ne_true)]
  rfl

/-- A member without the shaper has no use for its map. -/
theorem memberSources_without (faces : Faces) (without : member.withShaper = false)
    (codepointsMap : List (Nat × Nat)) :
    memberSources faces [] member = memberSources faces codepointsMap member := by
  rw [memberSources, memberSources, memberSelection, memberSelection, without]
  rfl

theorem Shaped.shaperResult_eq {ttfPath : TtfPath}
    (shaped : Shaped tools subset ttfPath state shaperResult after) :
    after.shaperResult = some shaperResult := by
  rcases shaped with ⟨present, rfl⟩ | ⟨-, tables, -, rfl⟩
  · exact present
  · rfl

theorem Shaped.outDir_eq {ttfPath : TtfPath}
    (shaped : Shaped tools subset ttfPath state shaperResult after) :
    after.outDir = state.outDir := by
  rcases shaped with ⟨-, rfl⟩ | ⟨-, tables, -, rfl⟩
  · rfl
  · rfl

theorem Shaped.bitmaps_eq {ttfPath : TtfPath}
    (shaped : Shaped tools subset ttfPath state shaperResult after) :
    after.bitmaps = state.bitmaps := by
  rcases shaped with ⟨-, rfl⟩ | ⟨-, tables, -, rfl⟩
  · rfl
  · rfl

/-! ## One member -/

/-- A run of `fontgen.py` whose failure is caught. -/
theorem attempt_fontgen (font : FontGen.Font) (names : Nat → Nat → BitmapName)
    (sources : List (Nat × GIndex)) (dir : BitmapDir) :
    attempt (font.fontgen names sources) dir =
      .ok ((font.collecting names dir).bitstring sources).toOption { dir with
        dump := font.dumpGlyphs names (font.collecting names dir) [] sources dir.dump } := by
  have run : font.fontgen names sources dir =
      (liftExcept ((font.collecting names dir).bitstring sources) :
        EStateM PyError BitmapDir (List UInt8)) { dir with
          dump := font.dumpGlyphs names (font.collecting names dir) [] sources dir.dump } := rfl
  rw [attempt, run]
  cases (font.collecting names dir).bitstring sources with
  | ok pfo => rfl
  | error e => rfl

/-- A member with thickened dots is drawn when its bitmaps are prepared. -/
theorem memberPfo_ijam (ijam : member.fixIjam = true) {made : Option (List UInt8)} :
    memberPfo tools compressed size member shaperResult state = .ok made after ↔
      ∃ ready, prepareBitmaps tools (memberFont tools.faces compressed size member)
          (memberNames tools shaperResult) (memberSources tools.faces shaperResult.mapTf member)
          (state.bitmaps member.bitmapKey) = .ok () ready ∧
        ∃ dir, attempt ((memberFont tools.faces compressed size member).fontgen
            (memberNames tools shaperResult)
            (memberSources tools.faces shaperResult.mapTf member)) ready = .ok made dir ∧
          after = state.storeBitmaps member dir := by
  rw [memberPfo, if_pos ijam, focus_eq_ok]
  constructor
  · rintro ⟨dir, run, rfl⟩
    obtain ⟨⟨⟩, ready, prepared, drawn⟩ := bind_eq_ok.mp run
    exact ⟨ready, prepared, dir, drawn, rfl⟩
  · rintro ⟨ready, prepared, dir, drawn, rfl⟩
    exact ⟨dir, bind_eq_ok.mpr ⟨(), ready, prepared, drawn⟩, rfl⟩

theorem memberPfo_plain (plain : member.fixIjam = false) (state : ComposeState) :
    memberPfo tools compressed size member shaperResult state =
      .ok ((memberFont tools.faces compressed size member).bitstring
        (memberSources tools.faces shaperResult.mapTf member)).toOption state := by
  rw [memberPfo, if_neg (by rw [plain]; exact Bool.false_ne_true)]
  rfl

/-- The file of a member shows the glyphs that have been collected. -/
theorem memberPfo_ok {made : Option (List UInt8)}
    (run : memberPfo tools compressed size member shaperResult state = .ok made after) :
    after = { state with bitmaps := after.bitmaps } ∧
      made = ((memberFont (collectedFaces tools shaperResult after.bitmaps) compressed size
        member).bitstring (memberSources tools.faces shaperResult.mapTf member)).toOption := by
  cases ijam : member.fixIjam with
  | true =>
      obtain ⟨ready, -, dir, drawn, rfl⟩ := (memberPfo_ijam ijam).mp run
      rw [attempt_fontgen] at drawn
      cases drawn
      refine ⟨rfl, ?_⟩
      rw [memberFont_ijam ijam, ComposeState.storeBitmaps_self]
      rfl
  | false =>
      rw [memberPfo_plain ijam] at run
      cases run
      exact ⟨rfl, by rw [memberFont_plain ijam]⟩

/-! ## The members of a template -/

/-- What `fontgen.py` makes of the members of a template. -/
def memberPfos (faces : Faces) (compressed : Bool) (size : Nat) (codepointsMap : List (Nat × Nat))
    (template : List MergeMember) : Except PyError (List (List UInt8)) :=
  template.mapM fun member => (memberFont faces compressed size member).bitstring
    (memberSources faces codepointsMap member)

variable {shaper hebrew : MergeMember}

theorem composeMembers_pair (withShaper : shaper.withShaper = true)
    (without : hebrew.withShaper = false) (plain : hebrew.fixIjam = false)
    {made : Option (List (List UInt8))}
    (run : composeMembers tools subset compressed size [shaper, hebrew] state = .ok made after) :
    ∃ shaperResult between, Shaped tools subset shaper.ttfPath state shaperResult between ∧
      (∃ shaperPfo, memberPfo tools compressed size shaper shaperResult between =
        .ok shaperPfo after) ∧
      made = (memberPfos (collectedFaces tools shaperResult after.bitmaps) compressed size
        shaperResult.mapTf [shaper, hebrew]).toOption := by
  obtain ⟨shaperResult, between, shaperRun, run⟩ := bind_eq_ok.mp run
  obtain ⟨shaperPfo, ready, pfoRun, run⟩ := bind_eq_ok.mp run
  have drawn := (memberPfo_ok pfoRun).2
  refine ⟨shaperResult, between, (memberShaper_iff withShaper).mp shaperRun, ?_⟩
  have sources (member : MergeMember) (bitmaps : BitmapKey → BitmapDir) :
      memberSources (collectedFaces tools shaperResult bitmaps) shaperResult.mapTf member =
        memberSources tools.faces shaperResult.mapTf member := rfl
  rw [memberPfos, List.mapM_cons, List.mapM_cons, List.mapM_nil, memberFont_plain plain]
  simp only [sources]
  cases first : (memberFont (collectedFaces tools shaperResult ready.bitmaps) compressed size
      shaper).bitstring (memberSources tools.faces shaperResult.mapTf shaper) with
  | error e =>
      rw [first] at drawn
      obtain rfl : shaperPfo = none := drawn
      obtain ⟨rfl, rfl⟩ := pure_eq_ok.mp run
      exact ⟨⟨none, pfoRun⟩, by rw [first]; rfl⟩
  | ok pfo =>
      rw [first] at drawn
      obtain rfl : shaperPfo = some pfo := drawn
      obtain ⟨others, last, othersRun, run⟩ := bind_eq_ok.mp run
      obtain ⟨rfl, rfl⟩ := pure_eq_ok.mp run
      obtain ⟨noResult, between', noRun, othersRun⟩ := bind_eq_ok.mp othersRun
      rw [memberShaper_without without] at noRun
      cases noRun
      obtain ⟨hebrewPfo, between', hebrewRun, othersRun⟩ := bind_eq_ok.mp othersRun
      rw [memberPfo_plain plain,
        memberSources_without tools.faces without shaperResult.mapTf] at hebrewRun
      cases hebrewRun
      cases second : (memberFont tools.faces compressed size hebrew).bitstring
          (memberSources tools.faces shaperResult.mapTf hebrew) with
      | error e =>
          simp only [second] at othersRun
          obtain ⟨rfl, rfl⟩ := pure_eq_ok.mp othersRun
          exact ⟨⟨some pfo, pfoRun⟩, by rw [first]; rfl⟩
      | ok hebrewPfo =>
          simp only [second] at othersRun
          cases othersRun
          exact ⟨⟨some pfo, pfoRun⟩, by rw [first]; rfl⟩

/-! ## A font -/

/-- The part of the loop before a member is generated: the shaper, the dumps and `fix_ijam.py`. -/
def prepareMember (tools : Tools) (subset : Subset) (compressed : Bool) (size : Nat)
    (member : MergeMember) : EStateM PyError ComposeState ShaperResult := do
  let shaperResult ← memberShaper tools subset member
  if member.fixIjam then
    focus (fun state => state.bitmaps member.bitmapKey) (.storeBitmaps member)
      (prepareBitmaps tools (memberFont tools.faces compressed size member)
        (memberNames tools shaperResult) (memberSources tools.faces shaperResult.mapTf member))
  pure shaperResult

theorem prepareMember_result {between ready : ComposeState} {made : ShaperResult}
    (prepared : prepareMember tools subset compressed size member state = .ok shaperResult ready)
    (shaperRun : memberShaper tools subset member state = .ok made between) :
    made = shaperResult := by
  obtain ⟨other, between', otherRun, run⟩ := bind_eq_ok.mp prepared
  obtain ⟨rfl, rfl⟩ := EStateM.Result.ok.inj (otherRun.symm.trans shaperRun)
  split at run
  · obtain ⟨⟨⟩, ready', -, run⟩ := bind_eq_ok.mp run
    exact (pure_eq_ok.mp run).1
  · exact (pure_eq_ok.mp run).1

/-- A member that is prepared is generated with the bitmaps that are there. -/
theorem memberPfo_prepared {ready : ComposeState}
    (prepared : prepareMember tools subset compressed size member state = .ok shaperResult ready)
    {pfo : List UInt8} (drawn : (memberFont (collectedFaces tools shaperResult ready.bitmaps)
      compressed size member).bitstring (memberSources tools.faces shaperResult.mapTf member) =
        .ok pfo) :
    ∃ between bitmaps, memberShaper tools subset member state = .ok shaperResult between ∧
      memberPfo tools compressed size member shaperResult between =
        .ok (some pfo) { ready with bitmaps := bitmaps } := by
  obtain ⟨shaperResult, between, shaperRun, run⟩ := bind_eq_ok.mp prepared
  cases ijam : member.fixIjam with
  | true =>
      rw [ijam, if_pos rfl] at run
      obtain ⟨⟨⟩, ready', prepareRun, run⟩ := bind_eq_ok.mp run
      obtain ⟨rfl, rfl⟩ := pure_eq_ok.mp run
      obtain ⟨dir, dirRun, rfl⟩ := focus_eq_ok.mp prepareRun
      rw [memberFont_ijam ijam, ComposeState.storeBitmaps_self] at drawn
      have drawRun := attempt_fontgen (memberFont tools.faces compressed size member)
        (memberNames tools shaperResult) (memberSources tools.faces shaperResult.mapTf member) dir
      rw [drawn] at drawRun
      exact ⟨between, (between.storeBitmaps member _).bitmaps, shaperRun,
        (memberPfo_ijam ijam).mpr ⟨dir, dirRun, _, drawRun, rfl⟩⟩
  | false =>
      rw [ijam, if_neg Bool.false_ne_true] at run
      obtain ⟨rfl, rfl⟩ := pure_eq_ok.mp run
      rw [memberFont_plain ijam] at drawn
      refine ⟨between, between.bitmaps, shaperRun, ?_⟩
      rw [memberPfo_plain ijam, drawn]
      rfl

theorem prepareMember_outDir {ready : ComposeState} (withShaper : member.withShaper = true)
    (prepared : prepareMember tools subset compressed size member state = .ok shaperResult ready) :
    ready.outDir = state.outDir := by
  obtain ⟨made, between, shaperRun, run⟩ := bind_eq_ok.mp prepared
  have shaped := (memberShaper_iff withShaper).mp shaperRun
  cases ijam : member.fixIjam with
  | true =>
      rw [ijam, if_pos rfl] at run
      obtain ⟨⟨⟩, ready', prepareRun, run⟩ := bind_eq_ok.mp run
      obtain ⟨rfl, rfl⟩ := pure_eq_ok.mp run
      obtain ⟨dir, -, rfl⟩ := focus_eq_ok.mp prepareRun
      exact shaped.outDir_eq
  | false =>
      rw [ijam, if_neg Bool.false_ne_true] at run
      obtain ⟨rfl, rfl⟩ := pure_eq_ok.mp run
      exact shaped.outDir_eq

theorem readHeader_readCompressed {input : List UInt8} {header : Header}
    (run : readHeader input = .ok header) : readCompressed input = .ok (isCompressed input) := by
  cases input with
  | nil => cases run
  | cons pfoVer rest =>
      rw [readCompressed]
      by_cases three : pfoVer = 3
      · rw [if_pos three]
        have notTwo : ¬ pfoVer = 2 := by
          rw [three]
          decide
        rw [readHeader, if_neg notTwo, if_pos three] at run
        split at run
        next maxHeight c0 c1 w0 w1 size codeptSz sSize features bytes =>
          have found : (slice (pfoVer :: rest) 0 10)[9]? = some features := by
            rw [bytes]
            rfl
          rw [slice, List.drop_zero, List.getElem?_take_of_lt (by decide),
            List.getElem?_cons_succ] at found
          simp [found, isCompressed, three]
        next => cases run
      · rw [if_neg three]
        simp [isCompressed, three]

theorem readCompressed_ok {input : List UInt8} {compressed : Bool}
    (run : readCompressed input = .ok compressed) : compressed = isCompressed input := by
  cases input with
  | nil => cases run
  | cons pfoVer rest =>
      rw [readCompressed] at run
      by_cases three : pfoVer = 3
      · rw [if_pos three] at run
        cases features : rest[8]? with
        | none =>
            simp only [features] at run
            cases run
        | some value =>
            simp only [features] at run
            cases run
            simp [isCompressed, three, features]
      · rw [if_neg three] at run
        cases run
        simp [isCompressed, three]

theorem templateFor_ok {key : Int × Option (List Char)} {sizeShiftKey : String}
    {template : List MergeMember} (run : templateFor key sizeShiftKey = .ok template) :
    selectTemplate key.1.toNat (key.2.map String.ofList) sizeShiftKey = .ok template := by
  rw [templateFor] at run
  by_cases natural : 0 ≤ key.1
  · rwa [if_pos natural] at run
  · rw [if_neg natural] at run
    cases run

/-- A font whose first member is prepared is composed with the bitmaps that are there. -/
theorem composeFont_prepared {sizeShiftKey : String} {file : File}
    {key : Int × Option (List Char)} (keyRun : fontKey file.1 = .ok key)
    {original : PfoMerge.Font} (read : fontRead file.2 = .ok original)
    (templateRun : templateFor key sizeShiftKey = .ok [shaper, hebrew]) {ready : ComposeState}
    (prepared : prepareMember tools subset (isCompressed file.2) key.1.toNat shaper state =
      .ok shaperResult ready) {output : List UInt8}
    (composed : composedPfo tools.cptOrder tools.glyphOrder
      (collectedFaces tools shaperResult ready.bitmaps) shaperResult.mapTf file.2 key.1.toNat
        [shaper, hebrew] = .ok output) :
    ∃ bitmaps, composeFont tools subset sizeShiftKey file state = .ok () { ready with
      bitmaps := bitmaps
      outDir := state.outDir.write file.1 output } := by
  obtain ⟨first, second, pair, withShaper, without, -, plain⟩ :=
    selectTemplate_ok (templateFor_ok templateRun)
  obtain ⟨rfl, rfl⟩ : shaper = first ∧ hebrew = second := by simpa using pair
  obtain ⟨header, headerRun, -⟩ := bind_ok read
  obtain ⟨members, membersRun, merged⟩ := bind_ok composed
  obtain ⟨shaperPfo, others, shaperRun, rest, rfl⟩ :=
    List.forall₂_cons_left_iff.mp (mapM_ok membersRun)
  obtain ⟨hebrewPfo, none, hebrewRun, nothing, rfl⟩ := List.forall₂_cons_left_iff.mp rest
  obtain rfl := List.forall₂_nil_left_iff.mp nothing
  obtain ⟨between, bitmaps, resultRun, pfoRun⟩ := memberPfo_prepared prepared shaperRun
  rw [memberFont_plain plain] at hebrewRun
  have sources : memberSources (collectedFaces tools shaperResult ready.bitmaps) shaperResult.mapTf
      hebrew = memberSources tools.faces [] hebrew :=
    (memberSources_without tools.faces without shaperResult.mapTf).symm
  rw [sources] at hebrewRun
  have membersRun : composeMembers tools subset (isCompressed file.2) key.1.toNat
      [shaper, hebrew] state =
        .ok (some [shaperPfo, hebrewPfo]) { ready with bitmaps := bitmaps } := by
    refine bind_eq_ok.mpr ⟨shaperResult, between, resultRun, ?_⟩
    refine bind_eq_ok.mpr ⟨some shaperPfo, _, pfoRun, ?_⟩
    refine bind_eq_ok.mpr ⟨some [hebrewPfo], _, ?_, rfl⟩
    refine bind_eq_ok.mpr ⟨⟨[], []⟩, _, memberShaper_without without _, ?_⟩
    refine bind_eq_ok.mpr ⟨some hebrewPfo, _, ?_, rfl⟩
    rw [memberPfo_plain plain, hebrewRun]
    rfl
  refine ⟨bitmaps, bind_eq_ok.mpr ⟨key, state, liftExcept_eq_ok.mpr ⟨keyRun, rfl⟩, ?_⟩⟩
  simp only [templateRun]
  refine bind_eq_ok.mpr ⟨isCompressed file.2, state,
    liftExcept_eq_ok.mpr ⟨readHeader_readCompressed headerRun, rfl⟩, ?_⟩
  refine bind_eq_ok.mpr ⟨some [shaperPfo, hebrewPfo], _, membersRun, ?_⟩
  simp only [merged, ← prepareMember_outDir withShaper prepared]
  rfl

/-- A run of `compose_font` for the members of a template: the shaper has been run, the bitmaps of
the first member are prepared, and the merged file is written if there is one. -/
structure FontRun (tools : Tools) (subset : Subset) (file : File) (size : Nat)
    (shaper hebrew : MergeMember) (state : ComposeState) (shaperResult : ShaperResult)
    (after : ComposeState) : Prop where
  shaped : ∃ between ready, Shaped tools subset shaper.ttfPath state shaperResult between ∧
    (∃ shaperPfo, memberPfo tools (isCompressed file.2) size shaper shaperResult between =
      .ok shaperPfo ready) ∧
    after = { ready with outDir := after.outDir }
  outDir : after.outDir = (composedPfo tools.cptOrder tools.glyphOrder
    (collectedFaces tools shaperResult after.bitmaps) shaperResult.mapTf file.2 size
      [shaper, hebrew]).toOption.elim state.outDir fun pfo => state.outDir.write file.1 pfo

theorem composeFont_ok {sizeShiftKey : String} {file : File}
    (run : composeFont tools subset sizeShiftKey file state = .ok () after) :
    ∃ key, fontKey file.1 = .ok key ∧
      ((∃ e, templateFor key sizeShiftKey = .error e ∧ after = state) ∨
        ∃ shaper hebrew shaperResult, templateFor key sizeShiftKey = .ok [shaper, hebrew] ∧
          FontRun tools subset file key.1.toNat shaper hebrew state shaperResult after) := by
  obtain ⟨key, start, keyEq, run⟩ := bind_eq_ok.mp run
  obtain ⟨keyRun, rfl⟩ := liftExcept_eq_ok.mp keyEq
  refine ⟨key, keyRun, ?_⟩
  cases chosen : templateFor key sizeShiftKey with
  | error e =>
      simp only [chosen] at run
      obtain ⟨-, rfl⟩ := pure_eq_ok.mp run
      exact Or.inl ⟨e, rfl, rfl⟩
  | ok template =>
      obtain ⟨shaper, hebrew, rfl, withShaper, without, -, plain⟩ :=
        selectTemplate_ok (templateFor_ok chosen)
      simp only [chosen] at run
      obtain ⟨compressed, between, header, run⟩ := bind_eq_ok.mp run
      obtain ⟨headerRun, rfl⟩ := liftExcept_eq_ok.mp header
      obtain rfl := readCompressed_ok headerRun
      obtain ⟨made, ready, membersRun, run⟩ := bind_eq_ok.mp run
      obtain ⟨shaperResult, shaperState, shaped, pfoRun, rfl⟩ :=
        composeMembers_pair withShaper without plain membersRun
      obtain ⟨shaperPfo, pfoRun⟩ := pfoRun
      have same : state.outDir = ready.outDir := by
        rw [(memberPfo_ok pfoRun).1]
        exact shaped.outDir_eq.symm
      refine Or.inr ⟨shaper, hebrew, shaperResult, rfl, ?_⟩
      have composedEq : composedPfo tools.cptOrder tools.glyphOrder
          (collectedFaces tools shaperResult ready.bitmaps) shaperResult.mapTf file.2 key.1.toNat
            [shaper, hebrew] =
          (memberPfos (collectedFaces tools shaperResult ready.bitmaps) (isCompressed file.2)
            key.1.toNat shaperResult.mapTf [shaper, hebrew]).bind fun members =>
              pfoMerge tools.cptOrder tools.glyphOrder (file.2 :: members) := rfl
      cases members : memberPfos (collectedFaces tools shaperResult ready.bitmaps)
          (isCompressed file.2) key.1.toNat shaperResult.mapTf [shaper, hebrew] with
      | error e =>
          simp only [members, Except.toOption] at run
          obtain ⟨-, rfl⟩ := pure_eq_ok.mp run
          refine ⟨⟨shaperState, ready, shaped, ⟨shaperPfo, pfoRun⟩, rfl⟩, ?_⟩
          rw [composedEq, members]
          exact same.symm
      | ok pfos =>
          simp only [members, Except.toOption] at run
          rw [members, Except.bind] at composedEq
          cases merged : pfoMerge tools.cptOrder tools.glyphOrder (file.2 :: pfos) with
          | error e =>
              simp only [merged] at run
              exact absurd run not_throw_eq_ok
          | ok pfo =>
              simp only [merged] at run
              cases run
              refine ⟨⟨shaperState, ready, shaped, ⟨shaperPfo, pfoRun⟩, rfl⟩, ?_⟩
              simp only [composedEq, merged, same]
              rfl

/-- A font that has been written is the merged file. -/
theorem composeFont_written {sizeShiftKey : String} {file : File}
    (run : composeFont tools subset sizeShiftKey file state = .ok () after)
    (new : file.1 ∉ state.outDir.map Prod.fst) {output : List UInt8}
    (written : (file.1, output) ∈ after.outDir) :
    ∃ key shaper hebrew shaperResult, fontKey file.1 = .ok key ∧
      templateFor key sizeShiftKey = .ok [shaper, hebrew] ∧
      after.shaperResult = some shaperResult ∧
      composedPfo tools.cptOrder tools.glyphOrder
        (collectedFaces tools shaperResult after.bitmaps) shaperResult.mapTf file.2 key.1.toNat
          [shaper, hebrew] = .ok output := by
  obtain ⟨key, keyRun, ⟨e, -, rfl⟩ | ⟨shaper, hebrew, shaperResult, chosen, made⟩⟩ :=
    composeFont_ok run
  · exact absurd (List.mem_map_of_mem written) new
  · obtain ⟨between, ready, shaped, ⟨shaperPfo, pfoRun⟩, afterEq⟩ := made.shaped
    refine ⟨key, shaper, hebrew, shaperResult, keyRun, chosen, ?_, ?_⟩
    · rw [afterEq, (memberPfo_ok pfoRun).1]
      exact shaped.shaperResult_eq
    · rw [made.outDir] at written
      cases composed : composedPfo tools.cptOrder tools.glyphOrder
          (collectedFaces tools shaperResult after.bitmaps) shaperResult.mapTf file.2 key.1.toNat
            [shaper, hebrew] with
      | error e =>
          rw [composed] at written
          exact absurd (List.mem_map_of_mem written) new
      | ok pfo =>
          rw [composed] at written
          rcases Folder.mem_of_mem_write written with same | old
          · rw [(Prod.mk.inj same).2]
          · exact absurd (List.mem_map_of_mem old) new

end FontCompose

end Elbbep
