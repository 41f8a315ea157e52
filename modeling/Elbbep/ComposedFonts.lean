import Elbbep.AnnouncedRecords
import Elbbep.FontCompose
import Elbbep.TableAgreement

/-!
# Composed fonts draw what the shaper emits

The codepoints that the shaper emits are made up: they mean a letter in one of its forms only
because the composed fonts have the glyph of that form for them.  Here the parts of the pipeline
are put together, from the map of `text_shaper.py` over the members that `fontgen.py` generates
to the merged file.
-/

namespace Elbbep

open PythonStruct HashChains PfoMerge

namespace FontGen

/-! ## A generated member -/

/-- Every glyph of `fontgen.py` has a header. -/
theorem glyphBits_header {font : Font} {first : Nat} {gindex : GIndex} {emitted : List UInt8}
    (bits : font.glyphBits first gindex = .ok emitted) :
    ∃ w h rest, emitted = w :: h :: rest ∧ 5 ≤ emitted.length := by
  cases compressed : font.rle4 with
  | true =>
      obtain ⟨w, h, body, rfl, long, -⟩ := glyphBits_compressed compressed bits
      exact ⟨w, h, body, rfl, long⟩
  | false =>
      obtain ⟨w, h, rest, rfl, length⟩ := glyphBits_isRecord compressed bits
      exact ⟨w, h, rest, rfl, by omega⟩

/-- What is read at the offset of a codepoint begins with what is announced of its glyph. -/
theorem Keyed.readGlyphData_announced {font : Font} {sources : List (Nat × GIndex)}
    {keyed : List (GIndex × Glyph)} (keys : Keyed font sources keyed) {pair : Nat × Nat}
    (placed : pair ∈ placedFrom 4 (keyed.map Prod.snd)) :
    ∃ gindex first emitted data, (pair.1, gindex) ∈ sources ∧
      (codepointsOf sources gindex).head? = some first ∧
      font.glyphBits first gindex = .ok emitted ∧
      readGlyphData ((glyphTableOf (keyed.map Prod.snd)).drop pair.2) 0 = .ok data ∧
      5 ≤ data.length ∧ announced emitted <+: data := by
  obtain ⟨glyph, inGlyphs, here, rest, dropped⟩ := drop_glyphTableOf placed
  obtain ⟨⟨gindex, glyph⟩, inKeyed, rfl⟩ := List.mem_map.mp inGlyphs
  obtain ⟨first, head, bits⟩ := keys.bits _ inKeyed
  have codepoints := keys.codepoints _ inKeyed
  simp only at here dropped head bits codepoints
  rw [codepoints] at here head
  obtain ⟨w, h, body, dataEq, long⟩ := glyphBits_header bits
  refine ⟨gindex, first, glyph.data,
    (glyph.data ++ rest).take (5 + bitmapDataSz w.toNat h.toNat),
    mem_codepointsOf.mp here, head, bits, ?_, ?_, ?_⟩
  · rw [dropped, dataEq]
    exact readGlyphData_take w h (body ++ rest)
  · rw [List.length_take, List.length_append]
    omega
  · rw [announced, dataEq]
    exact (List.prefix_append _ _).take _

/-- What `font_read` finds in a generated font: for each codepoint what is announced of its glyph,
and nothing for other codepoints. -/
theorem fontRead_generated {font : Font} (version : font.version = 3)
    {sources : List (Nat × GIndex)} (small : ∀ source ∈ sources, source.1 < 65536)
    (distinct : (sources.map Prod.fst).Nodup) {bytes : List UInt8}
    (run : font.bitstring sources = .ok bytes) :
    ∃ read, fontRead bytes = .ok read ∧ read.WellFormed ∧ read.compressed = font.rle4 ∧
      (∀ source ∈ sources, ∃ first emitted data,
        (codepointsOf sources source.2).head? = some first ∧
        font.glyphBits first source.2 = .ok emitted ∧ read.record source.1 = some data ∧
        announced emitted <+: data) ∧
      ∀ c, c ∉ sources.map Prod.fst → read.record c = none := by
  obtain ⟨keyed, pairs, fontinfo, generated⟩ := bitstring_ok small run
  obtain ⟨headerEq, sizeEq⟩ := generated.header_eq version
  let dataAt (offset : Nat) : List UInt8 :=
    ((readGlyphData ((glyphTableOf (keyed.map Prod.snd)).drop offset) 0).toOption).getD []
  have reads {pair : Nat × Nat} (placed : pair ∈ placedFrom 4 (keyed.map Prod.snd)) :
      readGlyphData ((glyphTableOf (keyed.map Prod.snd)).drop pair.2) 0 = .ok (dataAt pair.2) ∧
        5 ≤ (dataAt pair.2).length ∧ ∃ gindex first emitted, (pair.1, gindex) ∈ sources ∧
          (codepointsOf sources gindex).head? = some first ∧
          font.glyphBits first gindex = .ok emitted ∧ announced emitted <+: dataAt pair.2 := by
    obtain ⟨gindex, first, emitted, data, source, head, bits, read, long, begins⟩ :=
      generated.toKeyed.readGlyphData_announced placed
    have dataEq : dataAt pair.2 = data := by
      simp only [dataAt, read]
      rfl
    rw [dataEq]
    exact ⟨read, long, gindex, first, emitted, source, head, bits, begins⟩
  rw [generated.bytes_eq] at headerEq ⊢
  obtain ⟨found, items, read, done, perm⟩ := fontRead_placed generated.placed headerEq sizeEq rfl
    rfl generated.fits fun pair placed => (reads placed).1
  have itemsDistinct : (items.map Prod.fst).Nodup := by
    rw [(perm.map Prod.fst).nodup_iff, map_fst_placedFrom]
    exact generated.distinct distinct
  refine ⟨_, read, ?_, rfl, ?_, ?_⟩
  · apply done.wellFormed _ itemsDistinct
    · exact fun item member => (reads (perm.mem_iff.mp member)).2.1
    · intro item member
      obtain ⟨-, -, gindex, -, -, source, -⟩ := reads (perm.mem_iff.mp member)
      exact small _ source
  · rintro ⟨c, gindex⟩ inSources
    obtain ⟨entry, inKeyed, rfl⟩ := List.mem_map.mp
      ((generated.mem_keys gindex).mpr (List.mem_map.mpr ⟨_, inSources, rfl⟩))
    have here : c ∈ entry.2.codepoints := by
      rw [generated.codepoints entry inKeyed]
      exact mem_codepointsOf.mpr inSources
    obtain ⟨offset, placed⟩ := exists_placed 4 (List.mem_map_of_mem inKeyed) here
    obtain ⟨-, -, otherIndex, first, emitted, source, head, bits, begins⟩ := reads placed
    obtain rfl := (Prod.mk.inj (List.inj_on_of_nodup_map distinct source inSources rfl)).2
    exact ⟨first, emitted, dataAt offset, head, bits,
      done.recordOf_eq itemsDistinct (perm.mem_iff.mpr placed), begins⟩
  · intro c absent
    apply done.recordOf_eq_none
    intro inItems
    obtain ⟨item, member, rfl⟩ := List.mem_map.mp inItems
    obtain ⟨-, -, gindex, -, -, source, -⟩ := reads (perm.mem_iff.mp member)
    exact absent (List.mem_map.mpr ⟨_, source, rfl⟩)

theorem glyphBits_zeroWidth (font : Font) (codepoint : Nat) :
    font.glyphBits codepoint .zeroWidth = .ok [0, 0, 0, 0, 0] := by
  rfl

/-! ## The codepoints of a member -/

namespace Selection

variable {selection : Selection}

/-- Below the limit the loop takes every character of the subset. -/
theorem faceSources_eq {count : Nat} {chars : List (Nat × Nat)}
    (few : count + (chars.filter fun char => selection.codepointIsInSubset char.1).length ≤
      selection.maxGlyphs + 1) :
    selection.faceSources count chars =
      (chars.filter fun char => selection.codepointIsInSubset char.1).map fun char =>
        (char.1, .face char.2) := by
  induction chars generalizing count with
  | nil => rfl
  | cons char chars ih =>
      rw [faceSources]
      by_cases inside : selection.codepointIsInSubset char.1 = true
      · rw [List.filter_cons, if_pos inside, List.length_cons] at few
        rw [List.filter_cons, if_pos inside, if_neg (by omega), if_pos inside, ih (by omega),
          List.map_cons]
      · have skipped : ((char :: chars).filter fun char => selection.codepointIsInSubset char.1) =
            chars.filter fun char => selection.codepointIsInSubset char.1 := by
          rw [List.filter_cons, if_neg inside]
        rw [skipped] at few ⊢
        by_cases full : count > selection.maxGlyphs
        · have none : (chars.filter fun char => selection.codepointIsInSubset char.1) = [] :=
            List.eq_nil_of_length_eq_zero (by omega)
          rw [if_pos full, none, List.map_nil]
        · rw [if_neg full, if_neg inside, ih few]

end Selection

end FontGen

/-! ## The map of the shaper -/

theorem selectedCodeptItems_concat (selectedGlyphs : List (Nat × Nat)) (item : Nat × Nat) :
    selectedCodeptItems (selectedGlyphs ++ [item]) =
      setItem (selectedCodeptItems selectedGlyphs) item.2 item.1 := by
  rw [selectedCodeptItems, List.foldl_concat]
  rfl

/-- The items of the map are what is looked up in it. -/
theorem mem_selectedCodeptItems {selectedGlyphs : List (Nat × Nat)} {codept glyph : Nat} :
    (codept, glyph) ∈ selectedCodeptItems selectedGlyphs ↔
      selectedCodepts selectedGlyphs codept = some glyph := by
  induction selectedGlyphs using List.reverseRecOn with
  | nil => simp [selectedCodeptItems, selectedCodepts]
  | append_singleton selectedGlyphs item ih =>
      rw [selectedCodeptItems_concat, mem_setItem, selectedCodepts, List.reverse_append,
        List.reverse_singleton, List.singleton_append, List.find?_cons]
      by_cases here : codept = item.2
      · simp [here, eq_comm]
      · have different : (item.2 == codept) = false := beq_eq_false_iff_ne.mpr (Ne.symm here)
        rw [if_neg here, different, ih]
        rfl

theorem nodup_selectedCodeptItems (selectedGlyphs : List (Nat × Nat)) :
    ((selectedCodeptItems selectedGlyphs).map Prod.fst).Nodup := by
  induction selectedGlyphs using List.reverseRecOn with
  | nil => exact List.nodup_nil
  | append_singleton selectedGlyphs item ih =>
      rw [selectedCodeptItems_concat]
      exact nodup_keys_setItem ih _ _

/-- The codepoints that the map may have. -/
def mapCodepoints : List Nat :=
  scratchCodepoints ++ supplementalAlphabet.map Char.toNat

theorem supplementSelectedGlyphs_values (shapeAlone : Char → Nat) {selected : List (Nat × Nat)}
    {alphabet : List Char} {allowed : List Nat} (old : ∀ item ∈ selected, item.2 ∈ allowed)
    (new : ∀ ch ∈ alphabet, ch.toNat ∈ allowed) :
    ∀ item ∈ supplementSelectedGlyphs shapeAlone selected alphabet, item.2 ∈ allowed := by
  induction alphabet generalizing selected with
  | nil => exact old
  | cons ch alphabet ih =>
      rw [supplementSelectedGlyphs, List.foldl_cons]
      apply ih _ fun later member => new later (List.mem_cons_of_mem _ member)
      rintro ⟨glyph, codept⟩ member
      have cases : if glyph = shapeAlone ch then codept = ch.toNat else (glyph, codept) ∈ selected :=
        mem_setItem.mp member
      split at cases
      · rw [cases]
        exact new ch List.mem_cons_self
      · exact old _ cases

theorem PackedTable.shaperMap_codepoints {forms : FormsTable} {packed : PackState}
    {pairs : List (CharacterForms × ShaperLUTEntry)} (table : PackedTable forms packed pairs)
    (shapeAlone : Char → Nat) : ∀ item ∈ shaperMap shapeAlone packed, item.1 ∈ mapCodepoints := by
  rintro ⟨codept, glyph⟩ member
  have selected := mem_selectedCodeptItems.mp member
  rw [selectedCodepts, Option.map_eq_some_iff] at selected
  obtain ⟨item, found, rfl⟩ := selected
  have same : item.2 = codept := by simpa using List.find?_some found
  have inSelected := List.mem_reverse.mp (List.mem_of_find?_eq_some found)
  rw [← same]
  apply supplementSelectedGlyphs_values shapeAlone _ _ item inSelected
  · intro item member
    have scratch := table.codept_scratch (lookup_of_mem table.done.allocated.glyphs_nodup member)
    exact List.mem_append_left _ scratch
  · exact fun ch member => List.mem_append_right _ (List.mem_map_of_mem member)

/-! ## The codepoints of the members -/

namespace FontCompose

open FontGen (GIndex wildcardCodepoint ellipsisCodepoint)

/-- The zero-width codepoints of the fonts are those of the runtime. -/
theorem mem_zeroWidthCodepoints {c : Nat} : c ∈ zeroWidthCodepoints ↔ isZeroWidth c = true := by
  rw [zeroWidthCodepoints, isZeroWidth, List.mem_flatMap, List.any_eq_true]
  have ordered : ∀ r ∈ zeroWidthCodepointRanges, r.1 ≤ r.2 := by decide
  constructor
  · rintro ⟨r, member, inside⟩
    rw [List.mem_range'_1] at inside
    refine ⟨r, member, ?_⟩
    simp only [inRange, Bool.and_eq_true, decide_eq_true_eq]
    omega
  · rintro ⟨r, member, inside⟩
    simp only [inRange, Bool.and_eq_true, decide_eq_true_eq] at inside
    exact ⟨r, member, List.mem_range'_1.mpr (by omega)⟩

theorem zeroWidthCodepoints_nodup : zeroWidthCodepoints.Nodup := by
  have apart : zeroWidthCodepointRanges.Pairwise fun r s => r.2 ≤ s.1 := by decide
  rw [zeroWidthCodepoints, List.nodup_flatMap]
  refine ⟨fun _ _ => List.nodup_range', apart.imp fun before c inFirst inSecond => ?_⟩
  rw [List.mem_range'_1] at inFirst inSecond
  omega

theorem isZeroWidth_bounds {c : Nat} (zeroWidth : isZeroWidth c = true) :
    0x591 ≤ c ∧ c < 0x700 ∨ 0x8B6 ≤ c ∧ c < 0x8FF := by
  simp [isZeroWidth, zeroWidthCodepointRanges, inRange] at zeroWidth
  omega

theorem mem_hebrewCodeptList {c : Nat} : c ∈ ellipsisCodepoint :: hebrewCodeptList ↔
    c = 0x2026 ∨ c = 0x5c0 ∨ c = 0x5c3 ∨ c = 0x5c6 ∨ c = 0x20aa ∨ 0x5d0 ≤ c ∧ c < 0x5f5 := by
  simp [hebrewCodeptList, ellipsisCodepoint, List.mem_range'_1]

/-- The codepoints that the members of a template may have do not meet. -/
theorem mapCodepoints_apart {c : Nat} (inside : c ∈ mapCodepoints) :
    c < 65536 ∧ c ≠ wildcardCodepoint ∧ c ∉ zeroWidthCodepoints ∧
      c ∉ ellipsisCodepoint :: hebrewCodeptList := by
  rw [mem_zeroWidthCodepoints, mem_hebrewCodeptList]
  rcases List.mem_append.mp inside with scratch | supplemental
  · rw [mem_scratchCodepoints] at scratch
    refine ⟨by omega, ?_, fun zeroWidth => ?_, by omega⟩
    · rw [wildcardCodepoint]
      omega
    · have := isZeroWidth_bounds zeroWidth
      omega
  · have all : ∀ c ∈ supplementalAlphabet.map Char.toNat, c < 65536 ∧ c ≠ wildcardCodepoint ∧
        ¬ isZeroWidth c = true ∧ 0x600 ≤ c ∧ c < 0x700 := by decide
    obtain ⟨small, notWildcard, wide, lower, upper⟩ := all c supplemental
    exact ⟨small, notWildcard, wide, by omega⟩

theorem hebrewCodeptList_apart {c : Nat} (inside : c ∈ ellipsisCodepoint :: hebrewCodeptList) :
    c < 65536 ∧ c ≠ wildcardCodepoint ∧ c ∉ zeroWidthCodepoints := by
  rw [mem_hebrewCodeptList] at inside
  rw [mem_zeroWidthCodepoints, wildcardCodepoint]
  refine ⟨by omega, by omega, fun zeroWidth => ?_⟩
  simp [isZeroWidth, zeroWidthCodepointRanges, inRange] at zeroWidth
  omega

theorem zeroWidthCodepoints_apart : (wildcardCodepoint :: zeroWidthCodepoints).Nodup ∧
    ∀ c ∈ wildcardCodepoint :: zeroWidthCodepoints, c < 65536 := by
  have small {c : Nat} (member : c ∈ zeroWidthCodepoints) : c < 0x8FF := by
    have := isZeroWidth_bounds (mem_zeroWidthCodepoints.mp member)
    omega
  refine ⟨List.nodup_cons.mpr ⟨fun member => ?_, zeroWidthCodepoints_nodup⟩, ?_⟩
  · exact absurd (small member) (by decide)
  · rw [List.forall_mem_cons]
    exact ⟨by decide, fun c member => (small member).trans (by decide)⟩

/-- What every member begins with. -/
def firstSources : List (Nat × GIndex) :=
  (wildcardCodepoint, .face 0) :: zeroWidthCodepoints.map fun codept => (codept, .zeroWidth)

theorem map_fst_firstSources :
    firstSources.map Prod.fst = wildcardCodepoint :: zeroWidthCodepoints := by
  simp [firstSources, Function.comp_def]

/-- The codepoints of a member behind the first ones. -/
structure OwnSources (own : List (Nat × GIndex)) : Prop where
  distinct : (own.map Prod.fst).Nodup
  apart : ∀ c ∈ own.map Prod.fst, c < 65536 ∧ c ≠ wildcardCodepoint ∧ c ∉ zeroWidthCodepoints

namespace OwnSources

variable {own : List (Nat × GIndex)} (sources : OwnSources own)

include sources

theorem nodup : ((firstSources ++ own).map Prod.fst).Nodup := by
  rw [List.map_append, map_fst_firstSources, List.nodup_append']
  refine ⟨zeroWidthCodepoints_apart.1, sources.distinct, fun c first inOwn => ?_⟩
  obtain ⟨-, notWildcard, wide⟩ := sources.apart c inOwn
  rcases List.mem_cons.mp first with wildcard | zeroWidth
  · exact notWildcard wildcard
  · exact wide zeroWidth

theorem small : ∀ source ∈ firstSources ++ own, source.1 < 65536 := by
  intro source member
  have inKeys := List.mem_map_of_mem (f := Prod.fst) member
  rw [List.map_append, map_fst_firstSources, List.mem_append] at inKeys
  rcases inKeys with first | inOwn
  · exact zeroWidthCodepoints_apart.2 _ first
  · exact (sources.apart _ inOwn).1

end OwnSources

variable {faces : Faces} {codepointsMap : List (Nat × Nat)}

/-- The letters of the shaper in a member. -/
theorem memberSources_shaper {member : MergeMember} (withShaper : member.withShaper = true)
    (nonempty : codepointsMap ≠ []) :
    memberSources faces codepointsMap member =
      firstSources ++ (codepointsMap.insertionSort fun a b => a.1 ≤ b.1).map fun item =>
        (item.1, .face item.2) := by
  have notEmpty : codepointsMap.isEmpty = false := by
    rwa [List.isEmpty_eq_false_iff]
  simp only [memberSources, memberSelection, FontGen.Selection.sources, withShaper, if_true,
    notEmpty]
  rfl

theorem ownSources_shaper (distinct : (codepointsMap.map Prod.fst).Nodup)
    (inside : ∀ item ∈ codepointsMap, item.1 ∈ mapCodepoints) :
    OwnSources ((codepointsMap.insertionSort fun a b => a.1 ≤ b.1).map fun item =>
      (item.1, .face item.2)) := by
  have sorted := List.perm_insertionSort (fun a b : Nat × Nat => a.1 ≤ b.1) codepointsMap
  refine ⟨?_, fun c member => ?_⟩
  · rw [List.map_map]
    exact (sorted.map Prod.fst).nodup_iff.mpr distinct
  · rw [List.map_map] at member
    obtain ⟨item, inMap, rfl⟩ := List.mem_map.mp member
    obtain ⟨small, notWildcard, wide, -⟩ :=
      mapCodepoints_apart (inside item (sorted.mem_iff.mp inMap))
    exact ⟨small, notWildcard, wide⟩

/-- A face as FreeType gives it, without the codepoint that the generator keeps for itself. -/
structure Charmap (chars : List (Nat × Nat)) : Prop where
  distinct : (chars.map Prod.fst).Nodup
  noWildcard : wildcardCodepoint ∉ chars.map Prod.fst

/-- The Hebrew letters of a face, and its ellipsis. -/
def hebrewChars (chars : List (Nat × Nat)) : List (Nat × Nat) :=
  chars.filter fun char => char.1 ∈ ellipsisCodepoint :: hebrewCodeptList

theorem hebrewChars_codepoints (chars : List (Nat × Nat)) :
    ∀ c ∈ (hebrewChars chars).map Prod.fst, c ∈ ellipsisCodepoint :: hebrewCodeptList := by
  intro c member
  obtain ⟨char, inChars, rfl⟩ := List.mem_map.mp member
  exact of_decide_eq_true (List.mem_filter.mp inChars).2

/-- The Hebrew letters are so few that none is cut off. -/
theorem memberSources_hebrew {member : MergeMember} (withShaper : member.withShaper = false)
    (codepts : member.codepts = some hebrewCodeptList)
    (charmap : Charmap (faces.chars member.ttfPath)) :
    memberSources faces codepointsMap member =
      firstSources ++ (hebrewChars (faces.chars member.ttfPath)).map fun char =>
        (char.1, .face char.2) := by
  have subset : ((faces.chars member.ttfPath).filter fun char =>
      (memberSelection codepointsMap member).codepointIsInSubset char.1) =
        hebrewChars (faces.chars member.ttfPath) := by
    apply List.filter_congr
    intro char inChars
    have notWildcard : char.1 ≠ wildcardCodepoint := by
      intro same
      exact charmap.noWildcard (List.mem_map.mpr ⟨char, inChars, same⟩)
    simp only [FontGen.Selection.codepointIsInSubset, memberSelection, codepts, List.mem_cons,
      Option.elim]
    by_cases ellipsis : char.1 = ellipsisCodepoint
    · simp [ellipsis]
    · simp [ellipsis, notWildcard]
  have few : (hebrewChars (faces.chars member.ttfPath)).length ≤ 42 := by
    have distinct : ((hebrewChars (faces.chars member.ttfPath)).map Prod.fst).Nodup :=
      charmap.distinct.sublist (List.filter_sublist.map _)
    have bound := (List.Nodup.subperm distinct (hebrewChars_codepoints _)).length_le
    rwa [List.length_map] at bound
  have starts : firstSources.length = 178 := by
    simp [firstSources, zeroWidthCodepoints, zeroWidthCodepointRanges]
  have unlimited : (memberSelection codepointsMap member).faceSources firstSources.length
      (faces.chars member.ttfPath) =
        (hebrewChars (faces.chars member.ttfPath)).map fun char => (char.1, .face char.2) := by
    rw [FontGen.Selection.faceSources_eq, subset]
    rw [subset, starts]
    change 178 + _ ≤ 256 + 1
    omega
  rw [← unlimited]
  simp only [memberSources, memberSelection, FontGen.Selection.sources, withShaper]
  rfl

theorem ownSources_hebrew {chars : List (Nat × Nat)} (charmap : Charmap chars) :
    OwnSources ((hebrewChars chars).map fun char => (char.1, .face char.2)) := by
  have codepoints : ((hebrewChars chars).map fun char => (char.1, GIndex.face char.2)).map
      Prod.fst = (hebrewChars chars).map Prod.fst := by
    rw [List.map_map]
    rfl
  refine ⟨?_, fun c member => ?_⟩
  · rw [codepoints]
    exact charmap.distinct.sublist (List.filter_sublist.map _)
  · rw [codepoints] at member
    exact hebrewCodeptList_apart (hebrewChars_codepoints chars c member)

/-! ## A composed font -/

/-- At a codepoint the file has what is announced of the record that was emitted for a glyph.  That
is all of the record if and only if the glyph is kept. -/
def DrawsGlyph (pfo : List UInt8) (font : FontGen.Font) (c : Nat) (gindex : GIndex) : Prop :=
  ∃ first emitted, font.glyphBits first gindex = .ok emitted ∧
    Renders pfo c (some (announced emitted)) ∧
    (announced emitted = emitted ↔ font.GlyphKept first gindex)

/-- A member as it was read. -/
structure MemberRead (font : FontGen.Font) (own : List (Nat × GIndex)) (read : PfoMerge.Font) :
    Prop where
  wellFormed : read.WellFormed
  compressed : read.compressed = font.rle4
  zeroWidth : ∀ c ∈ zeroWidthCodepoints, ∃ data, read.record c = some data ∧
    [0, 0, 0, 0, 0] <+: data
  ownGlyph : ∀ source ∈ own, ∃ first emitted data, font.glyphBits first source.2 = .ok emitted ∧
    read.record source.1 = some data ∧ announced emitted <+: data
  others : ∀ c, c ≠ wildcardCodepoint → c ∉ zeroWidthCodepoints → c ∉ own.map Prod.fst →
    read.record c = none

theorem OwnSources.memberRead {font : FontGen.Font} (version : font.version = 3)
    {own : List (Nat × GIndex)} (sources : OwnSources own) {bytes : List UInt8}
    (run : font.bitstring (firstSources ++ own) = .ok bytes) :
    ∃ read, fontRead bytes = .ok read ∧ MemberRead font own read := by
  obtain ⟨read, readRun, wellFormed, compressed, records, others⟩ :=
    FontGen.fontRead_generated version sources.small sources.nodup run
  refine ⟨read, readRun, wellFormed, compressed, ?_, ?_, ?_⟩
  · intro c zeroWidth
    have member : (c, GIndex.zeroWidth) ∈ firstSources ++ own := by
      apply List.mem_append_left
      exact List.mem_cons_of_mem _ (List.mem_map.mpr ⟨c, zeroWidth, rfl⟩)
    obtain ⟨first, emitted, data, -, bits, record, begins⟩ := records _ member
    rw [FontGen.glyphBits_zeroWidth] at bits
    obtain rfl := Except.ok.inj bits
    exact ⟨data, record, begins⟩
  · intro source member
    obtain ⟨first, emitted, data, -, bits, record, begins⟩ :=
      records source (List.mem_append_right _ member)
    exact ⟨first, emitted, data, bits, record, begins⟩
  · intro c notWildcard wide notOwn
    apply others
    rw [List.map_append, map_fst_firstSources, List.mem_append, List.mem_cons]
    tauto

/-- What a composed font has for every codepoint but the wildcard and the ellipsis. -/
structure Composed (faces : Faces) (codepointsMap : List (Nat × Nat)) (compressed : Bool)
    (size : Nat) (shaper hebrew : MergeMember) (original pfo : List UInt8) : Prop where
  zeroWidth : ∀ c ∈ zeroWidthCodepoints, Renders pfo c (some [0, 0, 0, 0, 0])
  shaperGlyph : ∀ item ∈ codepointsMap,
    DrawsGlyph pfo (memberFont faces compressed size shaper) item.1 (.face item.2)
  hebrewGlyph : ∀ char ∈ faces.chars hebrew.ttfPath, char.1 ∈ hebrewCodeptList →
    DrawsGlyph pfo (memberFont faces compressed size hebrew) char.1 (.face char.2)
  others : ∀ c, c ≠ wildcardCodepoint → c ≠ ellipsisCodepoint → c ∉ zeroWidthCodepoints →
    c ∉ codepointsMap.map Prod.fst →
    (c ∈ hebrewCodeptList → c ∉ (faces.chars hebrew.ttfPath).map Prod.fst) →
    ∃ record, fileRecord original c = .ok record ∧ Renders pfo c record

theorem lastRecord_three (first second third : PfoMerge.Font) (c : Nat) :
    lastRecord [first, second, third] c =
      (third.record c).or ((second.record c).or (first.record c)) := by
  simp only [lastRecord, List.reverse_cons, List.reverse_nil, List.nil_append, List.cons_append,
    List.findSome?_cons, List.findSome?_nil]
  cases third.record c <;> cases second.record c <;> cases first.record c <;> rfl

theorem mem_of_lookup_eq_some {α β : Type} [BEq α] [LawfulBEq α] {items : List (α × β)} {key : α}
    {value : β} (found : items.lookup key = some value) : (key, value) ∈ items := by
  obtain ⟨before, behind, rfl, -⟩ := List.lookup_eq_some_iff.mp found
  simp

theorem selectTemplate_mem {size : Nat} {variant : Option String} {sizeShiftKey : String}
    {template : List MergeMember} (run : selectTemplate size variant sizeShiftKey = .ok template) :
    ∃ sets ∈ notificationSizeMap, ((size, variant), template) ∈ templates sets.2.1 sets.2.2 := by
  unfold selectTemplate at run
  split at run
  · cases run
  next notification notificationBold found =>
    split at run
    · cases run
    next other chosen =>
      cases run
      exact ⟨_, mem_of_lookup_eq_some found, mem_of_lookup_eq_some chosen⟩

/-- Every template has the letters of the shaper, and behind them the Hebrew letters. -/
theorem selectTemplate_ok {size : Nat} {variant : Option String} {sizeShiftKey : String}
    {template : List MergeMember} (run : selectTemplate size variant sizeShiftKey = .ok template) :
    ∃ shaper hebrew, template = [shaper, hebrew] ∧ shaper.withShaper = true ∧
      hebrew.withShaper = false ∧ hebrew.codepts = some hebrewCodeptList ∧
      hebrew.fixIjam = false := by
  have shapes : ∀ sets ∈ notificationSizeMap, ∀ entry ∈ templates sets.2.1 sets.2.2,
      ∃ shaper ∈ entry.2.head?, ∃ hebrew ∈ entry.2[1]?, entry.2 = [shaper, hebrew] ∧
        shaper.withShaper = true ∧ hebrew.withShaper = false ∧
        hebrew.codepts = some hebrewCodeptList ∧ hebrew.fixIjam = false := by
    decide
  obtain ⟨sets, inMap, inTemplates⟩ := selectTemplate_mem run
  obtain ⟨shaper, -, hebrew, -, shape⟩ := shapes sets inMap _ inTemplates
  exact ⟨shaper, hebrew, shape⟩

/-- The flag that `compose_font` looks for is the one that `font_read` finds. -/
theorem readHeader_compressed {input : List UInt8} {header : Header}
    (run : readHeader input = .ok header) : header.compressed = isCompressed input := by
  cases input with
  | nil => cases run
  | cons pfoVer rest =>
      rw [readHeader] at run
      by_cases two : pfoVer = 2
      · rw [if_pos two] at run
        split at run
        · split at run <;> cases run
          simp [isCompressed, two]
        · cases run
      · rw [if_neg two] at run
        by_cases three : pfoVer = 3
        · rw [if_pos three] at run
          split at run
          next maxHeight c0 c1 w0 w1 size codeptSz sSize features bytes =>
            split at run <;> cases run
            have tenth : (pfoVer :: rest).getD 9 0 = features := by
              have found : (slice (pfoVer :: rest) 0 10)[9]? = some features := by
                rw [bytes]
                rfl
              rw [slice, List.drop_zero, List.getElem?_take_of_lt (by decide)] at found
              rw [List.getD_eq_getElem?_getD, found, Option.getD_some]
            simp [isCompressed, three, ← tenth]
          · cases run
        · rw [if_neg three] at run
          cases run

theorem fontRead_compressed_eq {input : List UInt8} {original : PfoMerge.Font}
    (read : fontRead input = .ok original) : original.compressed = isCompressed input := by
  obtain ⟨header, headerRun, read⟩ := bind_ok read
  obtain ⟨glyphs, -, read⟩ := bind_ok read
  cases read
  exact readHeader_compressed headerRun

theorem mapM_three {ε α β : Type} {f : α → Except ε β} {a b c : α} {x y z : β} (first : f a = .ok x)
    (second : f b = .ok y) (third : f c = .ok z) : [a, b, c].mapM f = .ok [x, y, z] := by
  rw [List.mapM_cons, List.mapM_cons, List.mapM_cons, List.mapM_nil, first, second, third]
  rfl

theorem pfoMerge_renders {cptOrder : DictOrder (Nat × Nat)} {glyphOrder : DictOrder (Nat × Glyph)}
    {pfos : List (List UInt8)} {fonts : List PfoMerge.Font} {compressed : Bool} {pfo : List UInt8}
    (reads : pfos.mapM fontRead = .ok fonts) (nonempty : fonts ≠ [])
    (wellFormed : ∀ font ∈ fonts, font.WellFormed ∧ font.compressed = compressed)
    (run : pfoMerge cptOrder glyphOrder pfos = .ok pfo) (c : Nat) :
    Renders pfo c (lastRecord fonts c) := by
  obtain ⟨others, otherReads, run⟩ := bind_ok run
  obtain rfl := Except.ok.inj (reads.symm.trans otherReads)
  obtain ⟨merged, mergeRun, writeRun⟩ := bind_ok run
  obtain ⟨result, resultRun, resultWellFormed, records⟩ := mergeAll_ok cptOrder glyphOrder nonempty
    (fun font member => (wellFormed font member).1)
    (fun font member other otherMember =>
      (wellFormed font member).2.trans (wellFormed other otherMember).2.symm)
  obtain rfl := Except.ok.inj (resultRun.symm.trans mergeRun)
  rw [← records]
  exact (fontWrite_ok writeRun).renders resultWellFormed c

/-- What is merged from an original and two members. -/
theorem Composed.of_renders {compressed : Bool} {size : Nat} {shaper hebrew : MergeMember}
    {input : List UInt8} {original shaperFont hebrewFont : PfoMerge.Font} {pfo : List UInt8}
    (records : ∀ c, fileRecord input c = .ok (original.record c))
    (inside : ∀ item ∈ codepointsMap, item.1 ∈ mapCodepoints)
    (shaperMember : MemberRead (memberFont faces compressed size shaper)
      ((codepointsMap.insertionSort fun a b => a.1 ≤ b.1).map fun item => (item.1, .face item.2))
      shaperFont)
    (hebrewMember : MemberRead (memberFont faces compressed size hebrew)
      ((hebrewChars (faces.chars hebrew.ttfPath)).map fun char => (char.1, .face char.2))
      hebrewFont)
    (renders : ∀ c, Renders pfo c
      ((hebrewFont.record c).or ((shaperFont.record c).or (original.record c)))) :
    Composed faces codepointsMap compressed size shaper hebrew input pfo := by
  have sorted := List.perm_insertionSort (fun a b : Nat × Nat => a.1 ≤ b.1) codepointsMap
  have hebrewNone {c : Nat} (notWildcard : c ≠ wildcardCodepoint) (wide : c ∉ zeroWidthCodepoints)
      (notHebrew : c ∉ (hebrewChars (faces.chars hebrew.ttfPath)).map Prod.fst) :
      hebrewFont.record c = none := by
    apply hebrewMember.others c notWildcard wide
    rw [List.map_map]
    exact notHebrew
  refine ⟨?_, ?_, ?_, ?_⟩
  · intro c zeroWidth
    obtain ⟨data, record, begins⟩ := hebrewMember.zeroWidth c zeroWidth
    have here := renders c
    rw [record, Option.some_or] at here
    exact here.of_isPrefix begins
  · intro item member
    obtain ⟨-, notWildcard, wide, notHebrew⟩ := mapCodepoints_apart (inside item member)
    obtain ⟨first, emitted, data, bits, record, begins⟩ := shaperMember.ownGlyph (item.1, .face item.2)
      (List.mem_map.mpr ⟨item, sorted.mem_iff.mpr member, rfl⟩)
    have here := renders item.1
    rw [hebrewNone notWildcard wide fun inChars => notHebrew (hebrewChars_codepoints _ _ inChars),
      Option.none_or, record, Option.some_or] at here
    exact ⟨first, emitted, bits, here.of_isPrefix begins, FontGen.glyphBits_announced_iff bits⟩
  · intro char member inList
    have inChars : char ∈ hebrewChars (faces.chars hebrew.ttfPath) :=
      List.mem_filter.mpr ⟨member, by simp [inList]⟩
    obtain ⟨first, emitted, data, bits, record, begins⟩ := hebrewMember.ownGlyph
      (char.1, .face char.2) (List.mem_map.mpr ⟨char, inChars, rfl⟩)
    have here := renders char.1
    rw [record, Option.some_or] at here
    exact ⟨first, emitted, bits, here.of_isPrefix begins, FontGen.glyphBits_announced_iff bits⟩
  · intro c notWildcard notEllipsis wide notMapped notHebrew
    have shaperNone : shaperFont.record c = none := by
      apply shaperMember.others c notWildcard wide
      rw [List.map_map]
      exact fun inMap => notMapped ((sorted.map Prod.fst).mem_iff.mp inMap)
    have here := renders c
    rw [hebrewNone notWildcard wide, Option.none_or, shaperNone, Option.none_or] at here
    · exact ⟨original.record c, records c, here⟩
    · intro inChars
      obtain ⟨char, charIn, rfl⟩ := List.mem_map.mp inChars
      have inList := hebrewChars_codepoints _ _ inChars
      rcases List.mem_cons.mp inList with ellipsis | inList
      · exact notEllipsis ellipsis
      · exact notHebrew inList (List.mem_map_of_mem (List.mem_filter.mp charIn).1)

/-- The merged file for a template whose members are drawn as the faces say. -/
def composedPfo (cptOrder : DictOrder (Nat × Nat)) (glyphOrder : DictOrder (Nat × Glyph))
    (faces : Faces) (codepointsMap : List (Nat × Nat)) (input : List UInt8) (size : Nat)
    (template : List MergeMember) : Except PyError (List UInt8) := do
  let members ← template.mapM fun member =>
    (memberFont faces (isCompressed input) size member).bitstring
      (memberSources faces codepointsMap member)
  pfoMerge cptOrder glyphOrder (input :: members)

/-- A font that is composed has the letters. -/
theorem composedPfo_composed (cptOrder : DictOrder (Nat × Nat))
    (glyphOrder : DictOrder (Nat × Glyph)) {input : List UInt8} {original : PfoMerge.Font}
    (read : fontRead input = .ok original) (wellFormed : original.WellFormed)
    (nonempty : codepointsMap ≠ []) (distinct : (codepointsMap.map Prod.fst).Nodup)
    (inside : ∀ item ∈ codepointsMap, item.1 ∈ mapCodepoints)
    (charmaps : ∀ ttfPath, Charmap (faces.chars ttfPath)) {size : Nat} {variant : Option String}
    {sizeShiftKey : String} {template : List MergeMember}
    (templateRun : selectTemplate size variant sizeShiftKey = .ok template) {output : List UInt8}
    (run : composedPfo cptOrder glyphOrder faces codepointsMap input size template = .ok output) :
    ∃ shaper hebrew, template = [shaper, hebrew] ∧
      Composed faces codepointsMap (isCompressed input) size shaper hebrew input output := by
  obtain ⟨members, membersRun, run⟩ := bind_ok run
  obtain ⟨shaper, hebrew, rfl, withShaper, without, codepts, -⟩ := selectTemplate_ok templateRun
  refine ⟨shaper, hebrew, rfl, ?_⟩
  obtain _ | ⟨shaperRun, _ | ⟨hebrewRun, _ | _⟩⟩ := mapM_ok membersRun
  rw [memberSources_shaper withShaper nonempty] at shaperRun
  rw [memberSources_hebrew without codepts (charmaps _)] at hebrewRun
  have own := ownSources_shaper distinct inside
  obtain ⟨shaperFont, shaperRead, shaperMember⟩ := own.memberRead rfl shaperRun
  obtain ⟨hebrewFont, hebrewRead, hebrewMember⟩ :=
    (ownSources_hebrew (charmaps _)).memberRead rfl hebrewRun
  have members : ∀ font ∈ [original, shaperFont, hebrewFont],
      font.WellFormed ∧ font.compressed = isCompressed input := by
    rw [List.forall_mem_cons, List.forall_mem_cons, List.forall_mem_singleton]
    exact ⟨⟨wellFormed, fontRead_compressed_eq read⟩,
      ⟨shaperMember.wellFormed, shaperMember.compressed⟩,
      ⟨hebrewMember.wellFormed, hebrewMember.compressed⟩⟩
  apply Composed.of_renders (fontRead_record read wellFormed) inside shaperMember hebrewMember
  intro c
  rw [← lastRecord_three]
  exact pfoMerge_renders (mapM_three read shaperRead hebrewRead) (List.cons_ne_nil _ _) members run c

end FontCompose

end Elbbep
