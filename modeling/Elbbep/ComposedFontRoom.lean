import Elbbep.ComposedMembers
import Elbbep.WritableFonts

/-!
# Composing a font with room left

The members of a template add few codepoints to each bucket of the original.  So `compose_font`
writes a file for every original whose buckets are not nearly full.
-/

namespace Elbbep

open PythonStruct HashChains PfoMerge FailingPrograms

/-! ## What is read fits -/

theorem foldlM_keeps {ε α β : Type} {step : β → α → Except ε β} {holds : β → Prop}
    (keeps : ∀ state item next, holds state → step state item = .ok next → holds next)
    {items : List α} {state final : β} (start : holds state)
    (run : items.foldlM step state = .ok final) : holds final := by
  induction items generalizing state with
  | nil =>
      cases run
      exact start
  | cons item items ih =>
      rw [List.foldlM_cons] at run
      obtain ⟨next, here, run⟩ := bind_ok run
      exact ih (keeps state item next start here) run

namespace PfoMerge

/-- No glyph is longer than a bitmap of 255 by 255 pixels. -/
def ShortGlyphs (glyphs : List (Nat × Glyph)) : Prop :=
  ∀ entry ∈ glyphs, entry.2.data.length ≤ 8137

theorem length_readGlyphData {pfo : List UInt8} {dataStart : Nat} {data : List UInt8}
    (run : readGlyphData pfo dataStart = .ok data) : data.length ≤ 8137 := by
  unfold readGlyphData at run
  split at run
  next h w bytes =>
    have area : h.toNat * w.toNat ≤ 255 * 255 :=
      Nat.mul_le_mul (Nat.le_of_lt_succ h.toNat_lt) (Nat.le_of_lt_succ w.toNat_lt)
    have size : bitmapDataSz h.toNat w.toNat ≤ 8132 := by
      rw [bitmapDataSz]
      omega
    rw [← Except.ok.inj run, slice_eq_take_drop, List.length_take]
    omega
  next => cases run

theorem readChainItem_short {pfo : List UInt8} {glyphsBase : Nat} {glyphs next : List (Nat × Glyph)}
    {item : Nat × Nat} (short : ShortGlyphs glyphs)
    (run : readChainItem pfo glyphsBase glyphs item = .ok next) : ShortGlyphs next := by
  unfold readChainItem at run
  split at run
  · obtain ⟨data, read, run⟩ := bind_ok run
    cases run
    intro entry member
    rcases List.mem_append.mp member with old | new
    · exact short entry old
    · rw [List.mem_singleton.mp new]
      exact length_readGlyphData read
  · cases run
    intro entry member
    obtain ⟨old, inGlyphs, rfl⟩ := List.mem_map.mp member
    split
    · exact short old inGlyphs
    · exact short old inGlyphs

theorem readChain_short {header : Header} {pfo : List UInt8} {glyphs next : List (Nat × Glyph)}
    {directoryIndex : Nat} (short : ShortGlyphs glyphs)
    (run : header.readChain pfo glyphs directoryIndex = .ok next) : ShortGlyphs next := by
  obtain ⟨⟨tableSize, offset⟩, -, run⟩ := bind_ok run
  apply foldlM_keeps _ short run
  intro state itemIdx next stateShort step
  obtain ⟨item, -, step⟩ := bind_ok step
  exact readChainItem_short stateShort step

theorem u16_lt (low high : UInt8) : u16 low high < 65536 := by
  have := low.toNat_lt
  have := high.toNat_lt
  rw [u16]
  omega

theorem readHeader_small {input : List UInt8} {header : Header}
    (run : readHeader input = .ok header) : header.maxHeight < 256 ∧ header.wildcard < 65536 := by
  cases input with
  | nil => cases run
  | cons pfoVer rest =>
      rw [readHeader] at run
      split at run
      · split at run
        next maxHeight c0 c1 w0 w1 _ _ _ =>
          split at run <;> cases run
          exact ⟨maxHeight.toNat_lt, u16_lt w0 w1⟩
        next => cases run
      · split at run
        · split at run
          next maxHeight c0 c1 w0 w1 _ _ _ _ _ =>
            split at run <;> cases run
            exact ⟨maxHeight.toNat_lt, u16_lt w0 w1⟩
          next => cases run
        · cases run

theorem fontRead_small {input : List UInt8} {font : Font} (run : fontRead input = .ok font) :
    font.maxHeight < 256 ∧ font.wildcard < 65536 ∧ ShortGlyphs font.glyphs := by
  obtain ⟨header, headerRun, run⟩ := bind_ok run
  obtain ⟨glyphs, glyphsRun, run⟩ := bind_ok run
  cases run
  obtain ⟨height, wildcard⟩ := readHeader_small headerRun
  refine ⟨height, wildcard, foldlM_keeps ?_ (fun _ member => absurd member List.not_mem_nil) glyphsRun⟩
  exact fun _ _ _ => readChain_short

/-! ## What is merged fits -/

theorem mergeFonts_header {cptOrder : DictOrder (Nat × Nat)} {glyphOrder : DictOrder (Nat × Glyph)}
    {font1 font2 merged : Font} (run : mergeFonts cptOrder glyphOrder font1 font2 = .ok merged) :
    merged.maxHeight = font1.maxHeight ∧ merged.wildcard = font1.wildcard := by
  unfold mergeFonts at run
  split at run
  · cases run
    exact ⟨rfl, rfl⟩
  · cases run

theorem mergeAll_header {cptOrder : DictOrder (Nat × Nat)} {glyphOrder : DictOrder (Nat × Glyph)}
    {font merged : Font} {fonts : List Font}
    (run : mergeAll cptOrder glyphOrder (font :: fonts) = .ok merged) :
    merged.maxHeight = font.maxHeight ∧ merged.wildcard = font.wildcard := by
  apply foldlM_keeps _ ⟨rfl, rfl⟩ run
  rintro state other next ⟨height, wildcard⟩ step
  obtain ⟨nextHeight, nextWildcard⟩ := mergeFonts_header step
  exact ⟨nextHeight.trans height, nextWildcard.trans wildcard⟩

namespace Font

variable {font : Font}

theorem mem_codepoints {c : Nat} : c ∈ font.codepoints ↔ font.record c ≠ none := by
  rw [record, ne_eq, recordOf_eq_none_iff]
  constructor
  · intro member none
    obtain ⟨entry, inGlyphs, here⟩ := List.mem_flatMap.mp member
    exact none _ (List.mem_map_of_mem inGlyphs) here
  · intro found
    by_contra absent
    apply found
    intro glyph member here
    obtain ⟨entry, inGlyphs, rfl⟩ := List.mem_map.mp member
    exact absent (List.mem_flatMap.mpr ⟨entry, inGlyphs, here⟩)

theorem length_record (short : ShortGlyphs font.glyphs) {c : Nat} {data : List UInt8}
    (found : font.record c = some data) : data.length ≤ 8137 := by
  obtain ⟨glyph, here, rfl⟩ := Option.map_eq_some_iff.mp found
  obtain ⟨entry, inGlyphs, rfl⟩ := List.mem_map.mp (List.mem_of_find?_eq_some here)
  exact short entry inGlyphs

theorem WellFormed.length_glyphs (wellFormed : font.WellFormed) :
    font.glyphs.length ≤ font.codepoints.length := by
  have lengths : ∀ length ∈ font.glyphs.map fun entry => entry.2.codepoints.length, 1 ≤ length := by
    intro length member
    obtain ⟨entry, inGlyphs, rfl⟩ := List.mem_map.mp member
    exact List.length_pos_iff.mpr (wellFormed.nonempty entry inGlyphs)
  have bound := List.card_nsmul_le_sum _ 1 lengths
  rw [List.length_map, smul_eq_mul, Nat.mul_one] at bound
  rwa [codepoints, List.length_flatMap]

end Font

theorem lastRecord_eq_some {fonts : List Font} {c : Nat} {data : List UInt8}
    (found : lastRecord fonts c = some data) : ∃ font ∈ fonts, font.record c = some data := by
  obtain ⟨font, member, record⟩ := List.exists_of_findSome?_eq_some found
  exact ⟨font, List.mem_reverse.mp member, record⟩

/-- The glyphs of a merged font are no longer than the glyphs of the fonts. -/
theorem shortGlyphs_merged {fonts : List Font} {merged : Font} (wellFormed : merged.WellFormed)
    (records : ∀ c, merged.record c = lastRecord fonts c)
    (short : ∀ font ∈ fonts, ShortGlyphs font.glyphs) : ShortGlyphs merged.glyphs := by
  intro entry member
  obtain ⟨c, here⟩ := List.exists_mem_of_ne_nil _ (wellFormed.nonempty entry member)
  have record : merged.record c = some entry.2.data :=
    recordOf_of_distinct wellFormed.distinct_values (List.mem_map_of_mem member) here
  rw [records] at record
  obtain ⟨font, inFonts, record⟩ := lastRecord_eq_some record
  exact Font.length_record (short font inFonts) record

theorem Font.WellFormed.writable {font : Font} (wellFormed : font.WellFormed)
    (height : font.maxHeight < 256) (wildcard : font.wildcard < 65536)
    (glyphs : ShortGlyphs font.glyphs) (few : font.codepoints.length ≤ 10922)
    (short : ∀ index, (hashed font.codepoints index).length < offsetTableMaxSize) :
    font.Writable where
  height := height
  wildcard := wildcard
  few := few
  short := short
  near := by
    have bound : font.bitmapdataLength ≤ font.glyphs.length * 8137 := by
      have sums := List.sum_le_card_nsmul (font.glyphs.map fun entry => entry.2.data.length) 8137
        fun length member => by
          obtain ⟨entry, inGlyphs, rfl⟩ := List.mem_map.mp member
          exact glyphs entry inGlyphs
      rwa [List.length_map, smul_eq_mul] at sums
    have count := wellFormed.length_glyphs
    omega

end PfoMerge

namespace FontCompose

open FontGen (GIndex wildcardCodepoint ellipsisCodepoint)

/-! ## What the members add -/

/-- The places of the codepoints that members have. -/
def Added (c : Nat) : Prop :=
  c = 0x25AF ∨ c = 0x2026 ∨ c = 0x20AA ∨ 0x591 ≤ c ∧ c < 0x8FF

/-- A number for each of the codepoints with one hash value. -/
def addedPlace (c : Nat) : Nat :=
  if c = 0x25AF then 4 else if c = 0x2026 then 5 else if c = 0x20AA then 6 else (c - 0x591) / 255

theorem length_hashed_added {codepoints : List Nat} (distinct : codepoints.Nodup)
    (added : ∀ c ∈ codepoints, Added c) (index : Nat) :
    (hashed codepoints index).length ≤ 7 := by
  have member {c : Nat} (here : c ∈ hashed codepoints index) : Added c ∧ c % 255 = index := by
    obtain ⟨inList, same⟩ := List.mem_filter.mp here
    exact ⟨added c inList, by simpa [hashtableDirectorySize] using same⟩
  have places : ((hashed codepoints index).map addedPlace).Nodup := by
    apply (distinct.filter _).map_on
    intro c here d there same
    obtain ⟨cAdded, cIndex⟩ := member here
    obtain ⟨dAdded, dIndex⟩ := member there
    simp only [addedPlace, Added] at same cAdded dAdded
    split_ifs at same <;> omega
  have few : ((hashed codepoints index).map addedPlace).length ≤ (List.range 7).length := by
    apply (List.Nodup.subperm places _).length_le
    intro place inPlaces
    obtain ⟨c, here, rfl⟩ := List.mem_map.mp inPlaces
    obtain ⟨cAdded, -⟩ := member here
    rw [List.mem_range]
    simp only [addedPlace, Added] at cAdded ⊢
    split_ifs <;> omega
  rwa [List.length_map, List.length_range] at few

theorem length_added {codepoints : List Nat} (distinct : codepoints.Nodup)
    (added : ∀ c ∈ codepoints, Added c) : codepoints.length ≤ 881 := by
  have few : codepoints.length ≤ ([0x25AF, 0x2026, 0x20AA] ++ List.range' 0x591 878).length := by
    apply (List.Nodup.subperm distinct _).length_le
    intro c member
    have place := added c member
    simp only [Added, List.mem_append, List.mem_cons, List.not_mem_nil, or_false,
      List.mem_range'_1] at place ⊢
    omega
  rwa [List.length_append, List.length_range'] at few

theorem added_firstSources : ∀ c ∈ firstSources.map Prod.fst, Added c := by
  intro c member
  rw [map_fst_firstSources, List.mem_cons, mem_zeroWidthCodepoints] at member
  rcases member with rfl | zeroWidth
  · exact Or.inl rfl
  · have bounds := isZeroWidth_bounds zeroWidth
    rw [Added]
    omega

theorem added_mapCodepoints {c : Nat} (inside : c ∈ mapCodepoints) : Added c := by
  rcases List.mem_append.mp inside with scratch | supplemental
  · rw [mem_scratchCodepoints] at scratch
    rw [Added]
    omega
  · have all : ∀ c ∈ supplementalAlphabet.map Char.toNat, 0x600 ≤ c ∧ c < 0x700 := by decide
    have bounds := all c supplemental
    rw [Added]
    omega

theorem added_hebrewCodeptList {c : Nat} (inside : c ∈ ellipsisCodepoint :: hebrewCodeptList) :
    Added c := by
  rw [mem_hebrewCodeptList] at inside
  rw [Added]
  omega

/-- A member with packable glyphs is generated. -/
theorem OwnSources.bitstring_ok {own : List (Nat × GIndex)} (sources : OwnSources own)
    (added : ∀ c ∈ own.map Prod.fst, Added c) {font : FontGen.Font} (version : font.version = 3)
    (height : font.maxHeight < 256) (packs : font.Packs (firstSources ++ own)) :
    ∃ bytes, font.bitstring (firstSources ++ own) = .ok bytes := by
  have allAdded : ∀ c ∈ (firstSources ++ own).map Prod.fst, Added c := by
    intro c member
    rw [List.map_append, List.mem_append] at member
    exact member.elim (added_firstSources c) (added c)
  have few := length_added sources.nodup allAdded
  rw [List.length_map] at few
  apply FontGen.bitstring_packs version height sources.small packs (by omega)
  intro index
  have short := length_hashed_added sources.nodup allAdded index
  omega

/-- Where a member has a record. -/
theorem MemberRead.added {font : FontGen.Font} {own : List (Nat × GIndex)} {read : PfoMerge.Font}
    (member : MemberRead font own read) (added : ∀ c ∈ own.map Prod.fst, Added c) {c : Nat}
    (found : read.record c ≠ none) : Added c := by
  by_contra notAdded
  apply found
  apply member.others c
  · rintro rfl
    exact notAdded (Or.inl rfl)
  · intro zeroWidth
    apply notAdded
    apply added_firstSources
    rw [map_fst_firstSources]
    exact List.mem_cons_of_mem _ zeroWidth
  · exact fun inOwn => notAdded (added c inOwn)

/-! ## Room for the members -/

/-- A font in whose buckets the members find room. -/
structure Room (original : PfoMerge.Font) : Prop where
  few : original.codepoints.length ≤ 10000
  short : ∀ index, (hashed original.codepoints index).length ≤ 120

theorem Room.merged {original : PfoMerge.Font} (room : Room original) {codepoints : List Nat}
    (distinct : codepoints.Nodup)
    (origin : ∀ c ∈ codepoints, c ∈ original.codepoints ∨ Added c) :
    codepoints.length ≤ 10922 ∧
      ∀ index, (hashed codepoints index).length < offsetTableMaxSize := by
  let new := codepoints.filter fun c => c ∉ original.codepoints
  have newDistinct : new.Nodup := distinct.filter _
  have newAdded : ∀ c ∈ new, Added c := by
    intro c member
    obtain ⟨inList, notOld⟩ := List.mem_filter.mp member
    exact (origin c inList).resolve_left (of_decide_eq_true notOld)
  have covers : ∀ c ∈ codepoints, c ∈ original.codepoints ++ new := by
    intro c member
    by_cases old : c ∈ original.codepoints
    · exact List.mem_append_left _ old
    · exact List.mem_append_right _ (List.mem_filter.mpr ⟨member, by simp [old]⟩)
  constructor
  · have length := (List.Nodup.subperm distinct covers).length_le
    have newFew := length_added newDistinct newAdded
    have oldFew := room.few
    rw [List.length_append] at length
    omega
  · intro index
    have hashedCovers : ∀ c ∈ hashed codepoints index,
        c ∈ hashed original.codepoints index ++ hashed new index := by
      intro c member
      obtain ⟨inList, same⟩ := List.mem_filter.mp member
      rw [hashed, hashed, ← List.filter_append]
      exact List.mem_filter.mpr ⟨covers c inList, same⟩
    have length := (List.Nodup.subperm (distinct.filter _) hashedCovers).length_le
    have newFew := length_hashed_added newDistinct newAdded index
    have oldFew := room.short index
    rw [List.length_append] at length
    rw [offsetTableMaxSize]
    change (hashed codepoints index).length ≤ _ at length
    omega

/-! ## `compose_font` -/

variable {faces : Faces} {codepointsMap : List (Nat × Nat)}

theorem selectTemplate_sizes {size : Nat} {variant : Option String} {sizeShiftKey : String}
    {template : List MergeMember} (run : selectTemplate size variant sizeShiftKey = .ok template) :
    ∀ member ∈ template, member.size < 256 := by
  have sizes : ∀ sets ∈ notificationSizeMap, ∀ entry ∈ templates sets.2.1 sets.2.2,
      ∀ member ∈ entry.2, member.size < 256 := by
    decide
  obtain ⟨sets, inMap, inTemplates⟩ := selectTemplate_mem run
  exact sizes sets inMap _ inTemplates

theorem exists_of_mapM {ε α β : Type} {f : α → Except ε β} {items : List α} {results : List β}
    (run : items.mapM f = .ok results) : ∀ result ∈ results, ∃ item, f item = .ok result := by
  have each := mapM_ok run
  clear run
  induction each with
  | nil => exact fun _ member => absurd member List.not_mem_nil
  | cons here _ ih =>
      rw [List.forall_mem_cons]
      exact ⟨⟨_, here⟩, ih⟩

theorem pfoMerge_writes (cptOrder : DictOrder (Nat × Nat)) (glyphOrder : DictOrder (Nat × Glyph))
    {pfos : List (List UInt8)} {original : PfoMerge.Font} {fonts : List PfoMerge.Font}
    {compressed : Bool} (room : Room original) (reads : pfos.mapM fontRead = .ok (original :: fonts))
    (wellFormed : ∀ font ∈ original :: fonts, font.WellFormed ∧ font.compressed = compressed)
    (added : ∀ font ∈ fonts, ∀ c, font.record c ≠ none → Added c) :
    ∃ output, pfoMerge cptOrder glyphOrder pfos = .ok output := by
  have small : ∀ font ∈ original :: fonts,
      font.maxHeight < 256 ∧ font.wildcard < 65536 ∧ ShortGlyphs font.glyphs := by
    intro font member
    obtain ⟨pfo, read⟩ := exists_of_mapM reads font member
    exact fontRead_small read
  obtain ⟨merged, mergeRun, mergedWellFormed, records⟩ := mergeAll_ok cptOrder glyphOrder
    (List.cons_ne_nil original fonts) (fun font member => (wellFormed font member).1)
    (fun font member other otherMember =>
      (wellFormed font member).2.trans (wellFormed other otherMember).2.symm)
  obtain ⟨heightEq, wildcardEq⟩ := mergeAll_header mergeRun
  have origin : ∀ c ∈ merged.codepoints, c ∈ original.codepoints ∨ Added c := by
    intro c member
    rw [Font.mem_codepoints, records, Option.ne_none_iff_exists'] at member
    obtain ⟨data, found⟩ := member
    obtain ⟨font, inFonts, record⟩ := lastRecord_eq_some found
    have present : font.record c ≠ none := by simp [record]
    rcases List.mem_cons.mp inFonts with rfl | later
    · exact Or.inl (Font.mem_codepoints.mpr present)
    · exact Or.inr (added font later c present)
  obtain ⟨few, short⟩ := room.merged mergedWellFormed.distinct origin
  obtain ⟨originalHeight, originalWildcard, -⟩ := small original List.mem_cons_self
  have writable := mergedWellFormed.writable (by omega) (by omega)
    (shortGlyphs_merged mergedWellFormed records fun font member => (small font member).2.2) few short
  exact exists_ok_bind reads (exists_ok_bind mergeRun
    (fontWrite_writable mergedWellFormed writable))

/-- A member with packable glyphs is generated and read. -/
theorem OwnSources.member_ok {member : MergeMember} {own : List (Nat × GIndex)}
    (sources : OwnSources own) (added : ∀ c ∈ own.map Prod.fst, Added c)
    (sourcesEq : memberSources faces codepointsMap member = firstSources ++ own)
    (height : member.size < 256) {compressed : Bool} {size : Nat}
    (packs : (memberFont faces compressed size member).Packs
      (memberSources faces codepointsMap member)) :
    ∃ bytes read, (memberFont faces compressed size member).bitstring
        (memberSources faces codepointsMap member) = .ok bytes ∧
      fontRead bytes = .ok read ∧ (read.WellFormed ∧ read.compressed = compressed) ∧
      ∀ c, read.record c ≠ none → Added c := by
  rw [sourcesEq] at packs ⊢
  obtain ⟨bytes, run⟩ := sources.bitstring_ok added rfl height packs
  obtain ⟨read, readRun, memberRead⟩ := sources.memberRead rfl run
  exact ⟨bytes, read, run, readRun, ⟨memberRead.wellFormed, memberRead.compressed⟩,
    fun c => memberRead.added added⟩

theorem added_shaper (inside : ∀ item ∈ codepointsMap, item.1 ∈ mapCodepoints) :
    ∀ c ∈ ((codepointsMap.insertionSort fun a b => a.1 ≤ b.1).map fun item =>
      (item.1, GIndex.face item.2)).map Prod.fst, Added c := by
  intro c member
  rw [List.map_map] at member
  obtain ⟨item, inMap, rfl⟩ := List.mem_map.mp member
  have sorted := List.perm_insertionSort (fun a b : Nat × Nat => a.1 ≤ b.1) codepointsMap
  exact added_mapCodepoints (inside item (sorted.mem_iff.mp inMap))

theorem added_hebrew (chars : List (Nat × Nat)) :
    ∀ c ∈ ((hebrewChars chars).map fun char => (char.1, GIndex.face char.2)).map Prod.fst,
      Added c := by
  intro c member
  rw [List.map_map] at member
  exact added_hebrewCodeptList (hebrewChars_codepoints chars c member)

/-- A font with room left is composed, and has all the letters. -/
theorem composedPfo_ok (cptOrder : DictOrder (Nat × Nat)) (glyphOrder : DictOrder (Nat × Glyph))
    {input : List UInt8} {original : PfoMerge.Font} (read : fontRead input = .ok original)
    (wellFormed : original.WellFormed) (room : Room original) (nonempty : codepointsMap ≠ [])
    (distinct : (codepointsMap.map Prod.fst).Nodup)
    (inside : ∀ item ∈ codepointsMap, item.1 ∈ mapCodepoints)
    (charmaps : ∀ ttfPath, Charmap (faces.chars ttfPath)) {size : Nat} {variant : Option String}
    {sizeShiftKey : String} {template : List MergeMember}
    (templateRun : selectTemplate size variant sizeShiftKey = .ok template)
    (packs : ∀ member ∈ template, (memberFont faces (isCompressed input) size member).Packs
      (memberSources faces codepointsMap member)) :
    ∃ shaper hebrew output, template = [shaper, hebrew] ∧
      composedPfo cptOrder glyphOrder faces codepointsMap input size template = .ok output ∧
      Composed faces codepointsMap (isCompressed input) size shaper hebrew input output := by
  have sizes := selectTemplate_sizes templateRun
  obtain ⟨shaper, hebrew, rfl, withShaper, without, codepts, -⟩ := selectTemplate_ok templateRun
  rw [List.forall_mem_cons, List.forall_mem_singleton] at sizes packs
  obtain ⟨shaperPacks, hebrewPacks⟩ := packs
  obtain ⟨shaperBytes, shaperFont, shaperRun, shaperRead, shaperGood, shaperAdded⟩ :=
    (ownSources_shaper distinct inside).member_ok (added_shaper inside)
      (memberSources_shaper withShaper nonempty) sizes.1 shaperPacks
  obtain ⟨hebrewBytes, hebrewFont, hebrewRun, hebrewRead, hebrewGood, hebrewAdded⟩ :=
    (ownSources_hebrew (charmaps _)).member_ok (added_hebrew _)
      (memberSources_hebrew without codepts (charmaps _)) sizes.2 hebrewPacks
  have members : [shaper, hebrew].mapM (fun member =>
      (memberFont faces (isCompressed input) size member).bitstring
        (memberSources faces codepointsMap member)) = .ok [shaperBytes, hebrewBytes] := by
    rw [List.mapM_cons, List.mapM_cons, List.mapM_nil, shaperRun, hebrewRun]
    rfl
  have good : ∀ font ∈ [original, shaperFont, hebrewFont],
      font.WellFormed ∧ font.compressed = isCompressed input := by
    rw [List.forall_mem_cons, List.forall_mem_cons, List.forall_mem_singleton]
    exact ⟨⟨wellFormed, fontRead_compressed_eq read⟩, shaperGood, hebrewGood⟩
  have added : ∀ font ∈ [shaperFont, hebrewFont], ∀ c, font.record c ≠ none → Added c := by
    rw [List.forall_mem_cons, List.forall_mem_singleton]
    exact ⟨shaperAdded, hebrewAdded⟩
  obtain ⟨output, run⟩ :
      ∃ output, composedPfo cptOrder glyphOrder faces codepointsMap input size [shaper, hebrew] =
        .ok output :=
    exists_ok_bind members
      (pfoMerge_writes cptOrder glyphOrder room (mapM_three read shaperRead hebrewRead) good added)
  obtain ⟨otherShaper, otherHebrew, pair, composed⟩ := composedPfo_composed cptOrder glyphOrder
    read wellFormed nonempty distinct inside charmaps templateRun run
  obtain ⟨rfl, rfl⟩ : shaper = otherShaper ∧ hebrew = otherHebrew := by simpa using pair
  exact ⟨shaper, hebrew, output, rfl, run, composed⟩

end FontCompose

/-! ## The map of the shaper in a composed font -/

theorem setItem_ne_nil (items : List (Nat × Nat)) (key value : Nat) :
    setItem items key value ≠ [] := by
  have member : (key, value) ∈ setItem items key value := by
    rw [mem_setItem, if_pos rfl]
  exact List.ne_nil_of_mem member

theorem shaperMap_ne_nil (shapeAlone : Char → Nat) (packed : PackState) :
    shaperMap shapeAlone packed ≠ [] := by
  have ends : supplementalAlphabet = supplementalAlphabet.dropLast ++ ['،'] := by decide
  have nonempty : supplementSelectedGlyphs shapeAlone packed.selectedGlyphs supplementalAlphabet ≠
      [] := by
    rw [ends, supplementSelectedGlyphs, List.foldl_concat]
    exact setItem_ne_nil _ _ _
  rw [shaperMap, ← List.dropLast_append_getLast nonempty, selectedCodeptItems_concat]
  exact setItem_ne_nil _ _ _

/-- What a run of `text_shaper.py` has computed. -/
theorem textShaper_ok {unicodedataName : Char → Option String} {font : HbFont} {subset : Subset}
    {tables : ShaperTables} {shaperResult : ShaperResult}
    (run : textShaper unicodedataName font subset = .ok (tables, shaperResult)) :
    ∃ items packed, generateForms font.hbShape font.kashidaGlyph (shapedAlphabet subset) ligatures =
        .ok items ∧
      packLut unicodedataName items = .ok packed ∧ generateTables unicodedataName items = .ok tables ∧
      shaperResult = ⟨shaperMap font.shapeAlone packed, packed.labels⟩ := by
  obtain ⟨items, formsRun, run⟩ := bind_ok run
  obtain ⟨packed, packRun, run⟩ := bind_ok run
  obtain ⟨ranges, rangesRun, run⟩ := bind_ok run
  cases run
  refine ⟨items, packed, formsRun, packRun, ?_, rfl⟩
  simp only [generateTables, packRun, rangesRun, bind, Except.bind]

theorem textShaper_of_tables {unicodedataName : Char → Option String} {font : HbFont}
    {subset : Subset} {items : List CharacterForms} {tables : ShaperTables}
    (formsRun : generateForms font.hbShape font.kashidaGlyph (shapedAlphabet subset) ligatures =
      .ok items)
    (tablesRun : generateTables unicodedataName items = .ok tables) :
    ∃ packed, packLut unicodedataName items = .ok packed ∧
      textShaper unicodedataName font subset =
        .ok (tables, ⟨shaperMap font.shapeAlone packed, packed.labels⟩) := by
  obtain ⟨packed, packRun, run⟩ := bind_ok tablesRun
  obtain ⟨ranges, rangesRun, run⟩ := bind_ok run
  cases run
  refine ⟨packed, packRun, ?_⟩
  simp only [textShaper, formsRun, packRun, rangesRun, bind, Except.bind]

namespace FontCompose

/-- A map as the shaper writes it. -/
structure ShaperMap (codepointsMap : List (Nat × Nat)) : Prop where
  nonempty : codepointsMap ≠ []
  distinct : (codepointsMap.map Prod.fst).Nodup
  inside : ∀ item ∈ codepointsMap, item.1 ∈ mapCodepoints

theorem shaperMap_of_textShaper {unicodedataName : Char → Option String} {font : HbFont}
    {subset : Subset} {tables : ShaperTables} {shaperResult : ShaperResult}
    (run : textShaper unicodedataName font subset = .ok (tables, shaperResult)) :
    ShaperMap shaperResult.mapTf := by
  obtain ⟨items, packed, formsRun, packRun, -, eq⟩ := textShaper_ok run
  obtain ⟨forms, rfl, -⟩ := exists_formsTable formsRun
  obtain ⟨pairs, keys, done⟩ := packLut_ok packRun
  have table : PackedTable forms packed pairs := ⟨keys, done⟩
  have mapEq : shaperResult.mapTf = shaperMap font.shapeAlone packed := by rw [eq]
  rw [mapEq]
  exact ⟨shaperMap_ne_nil font.shapeAlone packed, nodup_selectedCodeptItems _,
    table.shaperMap_codepoints font.shapeAlone⟩

variable {tools : Tools} {subset : Subset} {shaperResult : ShaperResult}

/-- Where the variable of the script has something, a run of the shaper has written it. -/
def ShaperKnown (tools : Tools) (subset : Subset) (state : ComposeState) : Prop :=
  ∀ shaperResult, state.shaperResult = some shaperResult → ∃ ttfPath tables,
    textShaper tools.unicodedataName (tools.hbFont ttfPath) subset = .ok (tables, shaperResult)

theorem Shaped.known {ttfPath : TtfPath} {state after : ComposeState}
    (shaped : Shaped tools subset ttfPath state shaperResult after)
    (known : ShaperKnown tools subset state) : ∃ ttfPath tables,
      textShaper tools.unicodedataName (tools.hbFont ttfPath) subset =
        .ok (tables, shaperResult) := by
  rcases shaped with ⟨present, -⟩ | ⟨-, tables, run, -⟩
  · exact known _ present
  · exact ⟨ttfPath, tables, run⟩

/-- The state in which the script begins. -/
def startState (lut : Option ShaperTables) (bitmaps : BitmapKey → FontGen.BitmapDir) :
    ComposeState :=
  ⟨none, lut, bitmaps, []⟩

theorem composeFont_known {sizeShiftKey : String} {file : File} {state after : ComposeState}
    (known : ShaperKnown tools subset state)
    (run : composeFont tools subset sizeShiftKey file state = .ok () after) :
    ShaperKnown tools subset after := by
  obtain ⟨key, -, ⟨e, -, rfl⟩ | ⟨shaper, hebrew, made, -, fontRun⟩⟩ := composeFont_ok run
  · exact known
  · obtain ⟨between, ready, shaped, ⟨shaperPfo, pfoRun⟩, afterEq⟩ := fontRun.shaped
    have result : after.shaperResult = some made := by
      rw [afterEq, (memberPfo_ok pfoRun).1]
      exact shaped.shaperResult_eq
    intro found present
    obtain rfl := Option.some.inj (result.symm.trans present)
    exact shaped.known known

/-- In a run of the script the map always comes from a run of the shaper. -/
theorem shaperKnown_of_forM {sizeShiftKey : String} {files : List File} {lut : Option ShaperTables}
    {bitmaps : BitmapKey → FontGen.BitmapDir} {state : ComposeState}
    (run : files.forM (composeFont tools subset sizeShiftKey) (startState lut bitmaps) =
      .ok () state) : ShaperKnown tools subset state := by
  have start : ShaperKnown tools subset (startState lut bitmaps) := fun _ found => nomatch found
  have keeps : ∀ (done : List File) (file : File) (state after : ComposeState),
      ShaperKnown tools subset state →
        composeFont tools subset sizeShiftKey file state = .ok () after →
          ShaperKnown tools subset after :=
    fun _ _ _ _ => composeFont_known
  exact @forM_keeps _ _ _ _ (fun _ => ShaperKnown tools subset) keeps files [] _ _ start run

/-- Faces in which every glyph is a single pixel. -/
def pixelFaces : Faces where
  chars := fun _ => [(0x41, 1), (0x5D0, 2)]
  render := fun _ _ _ => ⟨1, 1, 0, 0, 2, [true], rfl⟩

/-- An original with a wildcard and one letter. -/
def pixelFont : FontGen.Font where
  version := 3
  maxHeight := 14
  rle4 := false
  shift := (0, 0)
  render := fun _ _ => ⟨1, 1, 0, 0, 2, [true], rfl⟩

def pixelSources : List (Nat × FontGen.GIndex) :=
  [(0x25AF, .face 0), (0x41, .face 1)]

@[irreducible] def pixelInput : List UInt8 :=
  ((pixelFont.bitstring pixelSources).toOption).getD []

def pixelOriginal : PfoMerge.Font :=
  ((fontRead pixelInput).toOption).getD ⟨0, 0, false, []⟩

theorem pixel_packs {font : FontGen.Font}
    (pixel : font.render = fun _ _ => ⟨1, 1, 0, 0, 2, [true], rfl⟩) {offset : Nat}
    (near : offset < 16) (shift : font.shift = (0, (offset : Int)))
    (sources : List (Nat × FontGen.GIndex)) : font.Packs sources := by
  intro source _ first
  cases source.2 with
  | zeroWidth => exact ⟨_, rfl⟩
  | face gindex =>
      have packed : ∃ data, FontGen.packBitmap font.rle4 ⟨1, 1, 0, 0, 2, [true], rfl⟩ =
          .ok (data, 1) := by
        cases font.rle4 with
        | false => exact ⟨_, rfl⟩
        | true =>
            have drawn : FontGen.packBitmap true ⟨1, 1, 0, 0, 2, [true], rfl⟩ =
                .ok (FontGen.compressGlyphRle4 [true]) := by
              decide +kernel
            exact ⟨_, drawn⟩
      have headers : ∀ offset : Nat, offset < 16 → (FontGen.packGlyphHeader 1 1 (0 + 0) (0 + (offset : Int))
          2).isOk := by
        decide +kernel
      obtain ⟨data, packed⟩ := packed
      rw [FontGen.Font.glyphBits, pixel, shift]
      exact exists_ok_bind packed
        (exists_ok_bind (eq_ok_of_isOk (headers offset near) []) ⟨_, rfl⟩)

theorem pixelInput_eq : pixelFont.bitstring pixelSources = .ok pixelInput := by
  have packs : pixelFont.Packs pixelSources := pixel_packs rfl (by norm_num) rfl _
  obtain ⟨bytes, run⟩ := FontGen.bitstring_packs rfl (by decide) (by decide) packs (by decide)
    fun index => (List.length_filter_le _ _).trans_lt (by decide)
  have input : pixelInput = bytes := by
    unfold pixelInput
    rw [run]
    rfl
  rw [input]
  exact run

theorem pixelOriginal_ok : fontRead pixelInput = .ok pixelOriginal ∧ pixelOriginal.WellFormed ∧
    Room pixelOriginal ∧ isCompressed pixelInput = false := by
  obtain ⟨read, readRun, wellFormed, compressed, -, others⟩ :=
    FontGen.fontRead_generated rfl (by decide) (by decide) pixelInput_eq
  have original : pixelOriginal = read := by
    rw [pixelOriginal, readRun]
    rfl
  have few : read.codepoints.length ≤ 2 := by
    have subset : ∀ c ∈ read.codepoints, c ∈ pixelSources.map Prod.fst := by
      intro c member
      by_contra absent
      exact PfoMerge.Font.mem_codepoints.mp member (others c absent)
    exact (List.Nodup.subperm wellFormed.distinct subset).length_le
  rw [original]
  refine ⟨readRun, wellFormed, ⟨by omega, fun index => ?_⟩, ?_⟩
  · have bound := List.length_filter_le
      (fun c => c % hashtableDirectorySize == index) read.codepoints
    change (hashed _ _).length ≤ _ at bound
    omega
  · rw [← fontRead_compressed_eq readRun, compressed]
    rfl

theorem pixelFaces_charmap (ttfPath : TtfPath) : Charmap (pixelFaces.chars ttfPath) := by
  change Charmap [(0x41, 1), (0x5D0, 2)]
  exact ⟨by decide, by decide⟩

/-- The glyphs of the sample font for single characters. -/
def sampleAlone (ch : Char) : Nat :=
  8 * ch.toNat

/-- A machine with these faces, and fonts in which letters have their sample glyphs. -/
def pixelTools : Tools where
  listing := ⟨List.reverse, List.reverse_perm⟩
  bitmapListing := ⟨List.reverse, List.reverse_perm⟩
  keyOrder := ⟨List.reverse, List.reverse_perm⟩
  cptOrder := ⟨List.reverse, List.reverse_perm⟩
  glyphOrder := ⟨id, fun _ => .refl _⟩
  unicodedataName := fun _ => some ""
  codepointName := fun _ => none
  hbFont := fun _ => ⟨sampleHbShape, 1, sampleAlone⟩
  faces := pixelFaces

def pixelFile : File :=
  ("001_GOTHIC_14.pfo".toList, pixelInput)

theorem fontKey_pixelFile : fontKey pixelFile.1 = .ok (14, none) := by
  decide +kernel

theorem pixelFile_ok :
    fontRead pixelFile.2 = .ok pixelOriginal ∧ isCompressed pixelFile.2 = false := by
  obtain ⟨read, -, -, plain⟩ := pixelOriginal_ok
  unfold pixelFile
  exact ⟨read, plain⟩

theorem textShaper_sample : ∃ shaperResult, ∀ ttfPath, textShaper pixelTools.unicodedataName
    (pixelTools.hbFont ttfPath) .arabic = .ok (sampleTables, shaperResult) := by
  obtain ⟨packed, -, shapes⟩ := @textShaper_of_tables pixelTools.unicodedataName
    ⟨sampleHbShape, 1, sampleAlone⟩ .arabic _ _ generateForms_sample generateTables_sample
  exact ⟨_, fun _ => shapes⟩

section Sample

variable {shaperResult : ShaperResult} (shapes : ∀ ttfPath, textShaper pixelTools.unicodedataName
  (pixelTools.hbFont ttfPath) .arabic = .ok (sampleTables, shaperResult))

include shapes in
theorem prepareMember_pixel (size : Nat) {height : Nat} (lut : Option ShaperTables)
    (bitmaps : BitmapKey → FontGen.BitmapDir) :
    prepareMember pixelTools .arabic (isCompressed pixelFile.2) size (arabic .tahoma height)
      (startState lut bitmaps) =
        .ok shaperResult ⟨some shaperResult, some sampleTables, bitmaps, []⟩ :=
  bind_eq_ok.mpr ⟨_, _, (memberShaper_iff rfl).mpr (Or.inr ⟨rfl, _, shapes .tahoma, rfl⟩), rfl⟩

theorem pixelMembers_pack (shaperResult : ShaperResult) (bitmaps : BitmapKey → FontGen.BitmapDir) :
    ∀ member ∈ [arabic .tahoma 13, hebrew .tahoma 14],
      (memberFont (collectedFaces pixelTools shaperResult bitmaps) (isCompressed pixelFile.2) 14
        member).Packs (memberSources pixelTools.faces shaperResult.mapTf member) := by
  rw [pixelFile_ok.2, List.forall_mem_cons, List.forall_mem_singleton, memberFont_plain rfl,
    memberFont_plain rfl]
  exact ⟨pixel_packs rfl (by norm_num) rfl _, pixel_packs rfl (by norm_num) rfl _⟩

include shapes in
/-- The sample file is composed. -/
theorem composeFont_pixel (lut : Option ShaperTables) (bitmaps : BitmapKey → FontGen.BitmapDir) :
    ∃ output after, composeFont pixelTools .arabic "small" pixelFile ⟨none, lut, bitmaps, []⟩ =
      .ok () ⟨some shaperResult, some sampleTables, after, [(pixelFile.1, output)]⟩ := by
  obtain ⟨-, wellFormed, room, -⟩ := pixelOriginal_ok
  obtain ⟨read, plain⟩ := pixelFile_ok
  have map := shaperMap_of_textShaper (shapes .tahoma)
  obtain ⟨_, _, output, pair, run, -⟩ := @composedPfo_ok
    (collectedFaces pixelTools shaperResult bitmaps) _ pixelTools.cptOrder pixelTools.glyphOrder _ _
    read wellFormed room map.nonempty map.distinct map.inside pixelFaces_charmap 14 none "small"
    [arabic .tahoma 13, hebrew .tahoma 14] rfl (pixelMembers_pack shaperResult bitmaps)
  obtain ⟨after, composeRun⟩ := @composeFont_prepared pixelTools .arabic _ _ _ _ "small" _ _
    fontKey_pixelFile _ read rfl _ (prepareMember_pixel shapes 14 lut bitmaps) _ run
  exact ⟨output, after, composeRun⟩

end Sample

end FontCompose

end Elbbep
