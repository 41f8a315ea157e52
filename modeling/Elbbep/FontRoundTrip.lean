import Elbbep.FontGenLayout

/-!
# `font_read` undoes both writers

On uncompressed fonts of version 3, reading a file that `font_write` or `fontgen.py` wrote
gives every codepoint its record back.  The size of a record is not stored; it follows from
the width and the height of the bitmap.
-/

namespace Elbbep

open PythonStruct HashChains PfoMerge

namespace PfoMerge

/-- Reading the file gives these glyphs back. -/
def ReadsBack (maxHeight wildcard : Nat) (compressed : Bool) (glyphs : List Glyph)
    (bytes : List UInt8) : Prop :=
  ∃ font, fontRead bytes = .ok font ∧ font.maxHeight = maxHeight ∧ font.wildcard = wildcard ∧
    font.compressed = compressed ∧ SameAssignment glyphs (font.glyphs.map Prod.snd)

/-- The order of the glyphs does not matter. -/
theorem sameAssignment_of_perm {glyphs others : List Glyph} (perm : glyphs.Perm others)
    (distinct : (glyphs.flatMap Glyph.codepoints).Nodup) : SameAssignment glyphs others := by
  have distinctOthers : (others.flatMap Glyph.codepoints).Nodup :=
    (perm.flatMap_right _).nodup_iff.mp distinct
  constructor
  · intro c
    by_cases assigned : ∃ glyph ∈ glyphs, c ∈ glyph.codepoints
    · obtain ⟨glyph, member, here⟩ := assigned
      rw [recordOf_of_distinct distinct member here,
        recordOf_of_distinct distinctOthers (perm.mem_iff.mp member) here]
    · have absent : ∀ glyph ∈ glyphs, c ∉ glyph.codepoints :=
        fun glyph member here => assigned ⟨glyph, member, here⟩
      rw [recordOf_eq_none_iff.mpr absent, recordOf_eq_none_iff.mpr]
      exact fun glyph member => absent glyph (perm.mem_iff.mpr member)
  · intro c d
    simp only [Shares, perm.mem_iff]

theorem SameAssignment.trans {first second third : List Glyph} (left : SameAssignment first second)
    (right : SameAssignment second third) : SameAssignment first third :=
  ⟨fun c => (left.record c).trans (right.record c),
    fun c d => (left.shares c d).trans (right.shares c d)⟩

/-- A glyph ends within the table. -/
theorem offset_add_length_le {glyphs : List Glyph} {pair : Nat × Nat}
    (member : pair ∈ placedFrom 4 glyphs) :
    ∃ glyph ∈ glyphs, pair.2 + glyph.data.length ≤ (glyphTableOf glyphs).length := by
  obtain ⟨before, glyph, behind, rfl, -, offset⟩ := mem_placedFrom.mp member
  refine ⟨glyph, by simp, ?_⟩
  rw [offset, glyphTableOf, List.flatMap_append, List.flatMap_cons]
  simp only [List.length_append, List.length_cons, List.length_nil]
  omega

theorem length_of_isRecord {data : List UInt8} (record : IsRecord data) : 5 ≤ data.length := by
  obtain ⟨width, height, rest, -, length⟩ := record
  omega

theorem Font.length_glyphTable (font : Font) :
    (glyphTableOf font.sortedGlyphs).length = 4 + font.bitmapdataLength := by
  have sums := (font.sortedGlyphs_perm.map fun glyph => glyph.data.length).sum_eq
  rw [List.map_map] at sums
  rw [glyphTableOf, List.length_append, List.length_flatMap, sums]
  rfl

/-- Two bytes are enough for the offsets where `font_write` takes two bytes. -/
theorem Font.offset_lt {font : Font} (long : ∀ entry ∈ font.glyphs, 5 ≤ entry.2.data.length)
    (narrow : font.chainItem = .hh) : ∀ pair ∈ font.pairs, pair.2 < 65536 := by
  intro pair member
  have small : font.bitmapdataLength < 65535 := by
    by_contra large
    simp [Font.chainItem, large] at narrow
  obtain ⟨glyph, inGlyphs, ends⟩ := offset_add_length_le (font.pairs_perm.mem_iff.mp member)
  obtain ⟨entry, inFont, rfl⟩ := List.mem_map.mp (font.sortedGlyphs_perm.mem_iff.mp inGlyphs)
  have size := long entry inFont
  rw [font.length_glyphTable] at ends
  omega

/-- `font_read` undoes `font_write`. -/
theorem fontRead_fontWrite {font : Font} (records : ∀ entry ∈ font.glyphs, IsRecord entry.2.data)
    (distinct : (font.glyphs.flatMap fun entry => entry.2.codepoints).Nodup) {bytes : List UInt8}
    (run : fontWrite font = .ok bytes) :
    ReadsBack font.maxHeight font.wildcard font.compressed (font.glyphs.map Prod.snd) bytes := by
  obtain ⟨rfl, headerEq, fits, -⟩ := fontWrite_ok run
  have sorted := font.sortedGlyphs_perm
  have sortedRecords : ∀ glyph ∈ font.sortedGlyphs, IsRecord glyph.data := by
    intro glyph member
    obtain ⟨entry, inFont, rfl⟩ := List.mem_map.mp (sorted.mem_iff.mp member)
    exact records entry inFont
  have distinctValues : ((font.glyphs.map Prod.snd).flatMap Glyph.codepoints).Nodup := by
    rw [List.flatMap_map]
    exact distinct
  have sortedDistinct : (font.sortedGlyphs.flatMap Glyph.codepoints).Nodup :=
    (sorted.flatMap_right _).nodup_iff.mpr distinctValues
  obtain ⟨found, read, same⟩ := fontRead_records sortedRecords sortedDistinct font.pairs_perm
    headerEq rfl rfl rfl fits
  exact ⟨_, read, rfl, rfl, rfl, (sameAssignment_of_perm sorted.symm distinctValues).trans same⟩

end PfoMerge

namespace FontGen

theorem packGlyphHeader_ok {width height : Nat} {left bottom advance : Int} {bytes : List UInt8}
    (run : packGlyphHeader width height left bottom advance = .ok bytes) :
    ∃ w h l b a : UInt8, bytes = [w, h, l, b, a] ∧ w.toNat = width ∧ h.toNat = height := by
  unfold packGlyphHeader at run
  obtain ⟨widthBytes, widthRun, run⟩ := bind_ok run
  obtain ⟨heightBytes, heightRun, run⟩ := bind_ok run
  obtain ⟨leftBytes, leftRun, run⟩ := bind_ok run
  obtain ⟨bottomBytes, bottomRun, run⟩ := bind_ok run
  obtain ⟨advanceBytes, advanceRun, run⟩ := bind_ok run
  obtain ⟨w, rfl, widthEq⟩ := packB_ok widthRun
  obtain ⟨h, rfl, heightEq⟩ := packB_ok heightRun
  obtain ⟨l, rfl, -⟩ := packSignedB_ok leftRun
  obtain ⟨b, rfl, -⟩ := packSignedB_ok bottomRun
  obtain ⟨a, rfl, -⟩ := packSignedB_ok advanceRun
  cases run
  exact ⟨w, h, l, b, a, rfl, by exact_mod_cast widthEq, by exact_mod_cast heightEq⟩

theorem length_packWords (glyphBitmap : List Bool) :
    (packWords glyphBitmap).length = (glyphBitmap.length + 31) / 32 * 4 := by
  have word : ∀ index ∈ List.range ((glyphBitmap.length + 31) / 32),
      (encodeL (wordOf ((glyphBitmap.drop (32 * index)).take 32))).length = 4 := fun _ _ => rfl
  rw [packWords, length_flatMap_uniform word, List.length_range, Nat.mul_comm]

theorem glyphBits_isRecord {font : Font} (plain : font.rle4 = false) {codepoint : Nat}
    {gindex : GIndex} {data : List UInt8} (run : font.glyphBits codepoint gindex = .ok data) :
    IsRecord data := by
  cases gindex with
  | zeroWidth =>
      obtain ⟨w, h, l, b, a, rfl, widthEq, heightEq⟩ := packGlyphHeader_ok run
      exact ⟨w, h, [l, b, a], rfl, by rw [widthEq, heightEq]; rfl⟩
  | face gindex =>
      obtain ⟨⟨glyphPacked, height⟩, packRun, run⟩ := bind_ok run
      obtain ⟨header, headerRun, run⟩ := bind_ok run
      obtain ⟨w, h, l, b, a, rfl, widthEq, heightEq⟩ := packGlyphHeader_ok headerRun
      cases run
      refine ⟨w, h, [l, b, a] ++ glyphPacked, rfl, ?_⟩
      rw [widthEq, heightEq, List.length_append]
      unfold packBitmap at packRun
      rw [plain] at packRun
      split at packRun
      next drawn =>
        cases packRun
        rw [length_packWords, (font.render codepoint gindex).bitmap_length]
        simp only [List.length_cons, List.length_nil]
      next empty =>
        cases packRun
        have zero : (font.render codepoint gindex).width * (font.render codepoint gindex).height =
            0 := by
          rw [not_and_or, not_not, not_not] at empty
          exact Nat.mul_eq_zero.mpr empty.symm
        simp [zero]

/-- The glyphs of a font without compression are records. -/
theorem Keyed.isRecord {font : Font} {sources : List (Nat × GIndex)}
    {keyed : List (GIndex × Glyph)} (keys : Keyed font sources keyed) (plain : font.rle4 = false) :
    ∀ glyph ∈ keyed.map Prod.snd, IsRecord glyph.data := by
  intro glyph member
  obtain ⟨entry, inKeyed, rfl⟩ := List.mem_map.mp member
  obtain ⟨c, -, bits⟩ := keys.bits entry inKeyed
  exact glyphBits_isRecord plain bits

theorem Keyed.distinct {font : Font} {sources : List (Nat × GIndex)}
    {keyed : List (GIndex × Glyph)} (keys : Keyed font sources keyed)
    (distinct : (sources.map Prod.fst).Nodup) :
    ((keyed.map Prod.snd).flatMap Glyph.codepoints).Nodup := by
  rw [List.flatMap_map, List.nodup_flatMap]
  constructor
  · intro entry member
    rw [keys.codepoints entry member]
    exact distinct.sublist (List.filter_sublist.map _)
  · have apart := List.pairwise_map.mp keys.keys_nodup
    refine apart.imp_of_mem ?_
    intro entry other member otherMember different c here there
    simp only [keys.codepoints entry member, mem_codepointsOf] at here
    simp only [keys.codepoints other otherMember, mem_codepointsOf] at there
    have same := List.inj_on_of_nodup_map distinct here there rfl
    exact different (Prod.mk.inj same).2

/-- `font_read` undoes `build_tables` and `bitstring` in version 3. -/
theorem fontRead_bitstring {font : Font} (version : font.version = 3) (plain : font.rle4 = false)
    {sources : List (Nat × GIndex)} (small : ∀ source ∈ sources, source.1 < 65536)
    (distinct : (sources.map Prod.fst).Nodup) {bytes : List UInt8}
    (run : font.bitstring sources = .ok bytes) :
    ∃ keyed, Keyed font sources keyed ∧
      ReadsBack font.maxHeight wildcardCodepoint false (keyed.map Prod.snd) bytes := by
  obtain ⟨keyed, pairs, fontinfo, generated⟩ := bitstring_ok small run
  have records := generated.toKeyed.isRecord plain
  obtain ⟨headerEq, sizeEq⟩ := generated.header_eq version
  rw [plain] at headerEq
  rw [generated.bytes_eq] at headerEq ⊢
  obtain ⟨found, read, same⟩ := fontRead_records records (generated.distinct distinct)
    generated.placed headerEq sizeEq rfl rfl generated.fits
  exact ⟨keyed, generated.toKeyed, _, read, rfl, rfl, rfl, same⟩

/-- Two bytes are enough for the offsets where `build_tables` takes two bytes. -/
theorem offset_lt {font : Font} {glyphs : List Glyph} (nonempty : ∀ glyph ∈ glyphs, glyph.data ≠ [])
    (narrow : font.offset16 glyphs = true) : ∀ pair ∈ placedFrom 4 glyphs, pair.2 < 65536 := by
  intro pair member
  obtain ⟨glyph, inGlyphs, ends⟩ := offset_add_length_le member
  have positive := List.length_pos_iff.mpr (nonempty glyph inGlyphs)
  have small := (of_decide_eq_true narrow).2
  omega

end FontGen

/-- `font_read` undoes `font_write` and `fontgen.py` on uncompressed fonts of version 3, and
where they choose two-byte offsets, every offset fits. -/
theorem fontRead_undoes_writers :
    (∀ (font : PfoMerge.Font) (bytes : List UInt8), font.compressed = false →
      (∀ entry ∈ font.glyphs, IsRecord entry.2.data) →
      (font.glyphs.flatMap fun entry => entry.2.codepoints).Nodup → fontWrite font = .ok bytes →
        ReadsBack font.maxHeight font.wildcard false (font.glyphs.map Prod.snd) bytes ∧
          (font.chainItem = .hh → ∀ pair ∈ font.pairs, pair.2 < 65536)) ∧
    ∀ (font : FontGen.Font) (sources : List (Nat × FontGen.GIndex)) (bytes : List UInt8),
      font.version = 3 → font.rle4 = false → (∀ source ∈ sources, source.1 < 65536) →
      (sources.map Prod.fst).Nodup → font.bitstring sources = .ok bytes →
        ∃ keyed, FontGen.Keyed font sources keyed ∧
          ReadsBack font.maxHeight FontGen.wildcardCodepoint false (keyed.map Prod.snd) bytes ∧
          (font.offset16 (keyed.map Prod.snd) = true →
            ∀ pair ∈ placedFrom 4 (keyed.map Prod.snd), pair.2 < 65536) := by
  constructor
  · intro font bytes plain records distinct run
    refine ⟨?_, PfoMerge.Font.offset_lt fun entry member =>
      length_of_isRecord (records entry member)⟩
    rw [← plain]
    exact fontRead_fontWrite records distinct run
  · intro font sources bytes version plain small distinct run
    obtain ⟨keyed, keys, reads⟩ := FontGen.fontRead_bitstring version plain small distinct run
    refine ⟨keyed, keys, reads, FontGen.offset_lt fun glyph member => ?_⟩
    have long := length_of_isRecord (keys.isRecord plain glyph member)
    exact List.length_pos_iff.mp (by omega)

/-- Two codepoints of one bucket that share a glyph, and an empty glyph. -/
def sharedGlyphFont : PfoMerge.Font :=
  ⟨14, 0x25AF, false, [(0x41, ⟨[0x41, 0x140], [3, 1, 0, 0, 4, 5, 0, 0, 0]⟩),
    (0x42, ⟨[0x42], [0, 0, 0, 0, 0]⟩)]⟩

def sharedGlyphBytes : List UInt8 :=
  ((fontWrite sharedGlyphFont).toOption).getD []

/-- A face with one glyph, three pixels wide. -/
def threePixelFont : FontGen.Font :=
  ⟨3, 14, false, (0, 0), fun _ _ => ⟨3, 1, 0, 0, 4, [true, false, true], rfl⟩⟩

def threePixelSources : List (Nat × FontGen.GIndex) :=
  [(0x25AF, .face 0), (0x591, .zeroWidth), (0x592, .zeroWidth)]

def threePixelBytes : List UInt8 :=
  ((threePixelFont.bitstring threePixelSources).toOption).getD []

theorem fontRead_undoes_samples :
    ReadsBack 14 0x25AF false (sharedGlyphFont.glyphs.map Prod.snd) sharedGlyphBytes ∧
      ∃ keyed, FontGen.Keyed threePixelFont threePixelSources keyed ∧
        ReadsBack 14 0x25AF false (keyed.map Prod.snd) threePixelBytes := by
  have written : fontWrite sharedGlyphFont = .ok sharedGlyphBytes :=
    eq_ok_of_isOk (by decide +kernel) []
  have generated : threePixelFont.bitstring threePixelSources = .ok threePixelBytes :=
    eq_ok_of_isOk (by decide +kernel) []
  have records : ∀ entry ∈ sharedGlyphFont.glyphs, IsRecord entry.2.data := by
    intro entry member
    simp only [sharedGlyphFont, List.mem_cons, List.not_mem_nil, or_false] at member
    rcases member with rfl | rfl
    · exact ⟨3, 1, _, rfl, by decide⟩
    · exact ⟨0, 0, _, rfl, by decide⟩
  obtain ⟨keyed, keys, reads, -⟩ := fontRead_undoes_writers.2 threePixelFont threePixelSources _
    rfl rfl (by decide) (by decide) generated
  exact ⟨(fontRead_undoes_writers.1 sharedGlyphFont _ rfl records (by decide) written).1,
    keyed, keys, reads⟩

end Elbbep
