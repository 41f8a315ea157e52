import Elbbep.FontRoundTrip
import Elbbep.MergedFonts

/-!
# Merging compressed fonts

In a compressed font the height of a glyph is replaced by the number of its units, but
`font_read` computes the size of a record as if it were the height.  For narrow glyphs the
size can be too small for the stream.
-/

namespace Elbbep

open PythonStruct HashChains PfoMerge

namespace FontGen

/-! ## The size of a stream -/

theorem length_packUnitPairs (units : List (Bool × Nat)) :
    (packUnitPairs units).length = units.length / 2 := by
  induction units using packUnitPairs.induct with
  | case1 first second units ih =>
      rw [packUnitPairs, List.length_cons, ih]
      simp only [List.length_cons]
      omega
  | case2 units short =>
      cases units with
      | nil => rfl
      | cons first units =>
          cases units with
          | nil => simp [packUnitPairs]
          | cons second units => exact absurd rfl (short first second units)

/-- Two units for each byte, padded to words. -/
theorem length_compressGlyphRle4 (bitmap : List Bool) :
    (compressGlyphRle4 bitmap).1.length = ((rleUnitList bitmap).length + 7) / 8 * 4 := by
  simp only [compressGlyphRle4, List.length_append, List.length_replicate, length_packUnitPairs]
  split
  · rw [List.length_append, List.length_singleton]
    omega
  · omega

/-- The numbers of units for which a glyph of this width is not cut. -/
def StreamFits (width units : Nat) : Prop :=
  4 ≤ width ∨ units ≤ 8 ∨ width = 3 ∧ (11 ≤ units ∧ units ≤ 16 ∨ 22 ≤ units ∧ units ≤ 24)

instance (width units : Nat) : Decidable (StreamFits width units) := by
  unfold StreamFits
  infer_instance

theorem streamFits_iff {width : Nat} (positive : 0 < width) (units : Nat) :
    (units + 7) / 8 ≤ (width * units + 31) / 32 ↔ StreamFits width units := by
  unfold StreamFits
  by_cases wide : 4 ≤ width
  · have product : 4 * units ≤ width * units := Nat.mul_le_mul_right units wide
    simp only [wide, true_or, iff_true]
    omega
  · have narrow : width = 1 ∨ width = 2 ∨ width = 3 := by omega
    -- From 25 units on a narrow bitmap is always too short.
    by_cases few : units < 25
    · interval_cases units <;> omega
    · rcases narrow with rfl | rfl | rfl <;> omega

/-- The stream of a glyph is not longer than a bitmap of its width and its number of units. -/
def Font.GlyphFits (font : Font) (codepoint : Nat) : GIndex → Prop
  | .zeroWidth => True
  | .face gindex =>
      let glyph := font.render codepoint gindex
      glyph.height = 0 ∨ glyph.width = 0 ∨
        StreamFits glyph.width (rleUnitList glyph.glyphBitmap).length

/-- The first two bytes of a compressed glyph bound its stream if and only if it fits. -/
theorem glyphBits_compressed {font : Font} (compressed : font.rle4 = true) {codepoint : Nat}
    {gindex : GIndex} {data : List UInt8} (run : font.glyphBits codepoint gindex = .ok data) :
    ∃ w h rest, data = w :: h :: rest ∧ 5 ≤ data.length ∧
      (data.length ≤ 5 + bitmapDataSz w.toNat h.toNat ↔ font.GlyphFits codepoint gindex) := by
  cases gindex with
  | zeroWidth =>
      obtain ⟨w, h, l, b, a, rfl, -, -⟩ := packGlyphHeader_ok run
      exact ⟨w, h, [l, b, a], rfl, Nat.le_refl 5, by simp [Font.GlyphFits]⟩
  | face gindex =>
      obtain ⟨⟨glyphPacked, height⟩, packRun, run⟩ := bind_ok run
      obtain ⟨header, headerRun, run⟩ := bind_ok run
      obtain ⟨w, h, l, b, a, rfl, widthEq, heightEq⟩ := packGlyphHeader_ok headerRun
      cases run
      refine ⟨w, h, [l, b, a] ++ glyphPacked, rfl, by simp, ?_⟩
      rw [widthEq, heightEq, List.length_append, bitmapDataSz_eq]
      simp only [List.length_cons, List.length_nil, Nat.zero_add, Nat.reduceAdd, Font.GlyphFits]
      unfold packBitmap at packRun
      rw [compressed] at packRun
      split at packRun
      next drawn =>
        have packed : (glyphPacked, height) =
            compressGlyphRle4 (font.render codepoint gindex).glyphBitmap := by
          simp only [if_true] at packRun
          split at packRun
          next => cases packRun
          next =>
            obtain ⟨-, -, packRun⟩ := bind_ok packRun
            exact (Except.ok.inj packRun).symm
        have length : glyphPacked.length =
            ((rleUnitList (font.render codepoint gindex).glyphBitmap).length + 7) / 8 * 4 := by
          rw [← length_compressGlyphRle4, ← packed]
        have units : height = (rleUnitList (font.render codepoint gindex).glyphBitmap).length :=
          congrArg Prod.snd packed
        rw [length, units, ← streamFits_iff (Nat.pos_of_ne_zero drawn.2)]
        simp only [drawn.1, drawn.2, false_or]
        omega
      next empty =>
        cases packRun
        rw [not_and_or, not_not, not_not] at empty
        simp only [List.length_nil]
        rcases empty with zero | zero <;> simp [zero]

end FontGen

namespace PfoMerge

/-! ## What is read -/

theorem readGlyphData_take (w h : UInt8) (rest : List UInt8) :
    readGlyphData (w :: h :: rest) 0 =
      .ok ((w :: h :: rest).take (5 + bitmapDataSz w.toNat h.toNat)) := by
  have start : slice (w :: h :: rest) 0 2 = [w, h] := rfl
  rw [readGlyphData, Nat.zero_add, start]
  simp only [slice, List.drop_zero, Nat.zero_add]

/-- Glyphs that are read with their headers are well-formed. -/
theorem GlyphsOf.wellFormed {dataAt : Nat → List UInt8} {items : List (Nat × Nat)}
    {found : List (Nat × Glyph)} (done : GlyphsOf dataAt items found)
    (small : ∀ item ∈ items, item.1 < 65536) (distinct : (items.map Prod.fst).Nodup)
    (long : ∀ item ∈ items, 5 ≤ (dataAt item.2).length) (maxHeight wildcard : Nat)
    (compressed : Bool) : Font.WellFormed ⟨maxHeight, wildcard, compressed, found⟩ where
  codepoint_lt := by
    intro entry member c here
    obtain ⟨offset, inItems, -⟩ := done.mem_values (List.mem_map_of_mem member) here
    exact small _ inItems
  distinct := by
    rw [List.nodup_flatMap]
    constructor
    · intro entry member
      rw [((done.mem_iff entry.1 entry.2).mp member).1]
      exact distinct.sublist (List.filter_sublist.map _)
    · refine (List.pairwise_map.mp done.keys_nodup).imp_of_mem ?_
      intro entry other member otherMember different c here there
      simp only [((done.mem_iff entry.1 entry.2).mp member).1, mem_codeptsAt] at here
      simp only [((done.mem_iff other.1 other.2).mp otherMember).1, mem_codeptsAt] at there
      have same := List.inj_on_of_nodup_map distinct here there rfl
      exact different (Prod.mk.inj same).2
  nonempty := by
    intro entry member
    obtain ⟨eq, inItems⟩ := (done.mem_iff entry.1 entry.2).mp member
    obtain ⟨item, inItems, offsetEq⟩ := List.mem_map.mp inItems
    have here : item.1 ∈ entry.2.codepoints := by
      rw [eq, ← offsetEq]
      exact mem_codeptsAt.mpr inItems
    exact List.ne_nil_of_mem here
  long := by
    intro entry member
    obtain ⟨eq, inItems⟩ := (done.mem_iff entry.1 entry.2).mp member
    obtain ⟨item, inItems, offsetEq⟩ := List.mem_map.mp inItems
    rw [eq, ← offsetEq]
    exact long item inItems

theorem lastRecord_of_absent {before behind : List Font} {font : Font} {c : Nat}
    {data : List UInt8} (record : font.record c = some data)
    (absent : ∀ other ∈ behind, other.record c = none) :
    lastRecord (before ++ font :: behind) c = some data := by
  have none : behind.reverse.findSome? (fun font => font.record c) = none := by
    rw [List.findSome?_eq_none_iff]
    exact fun other member => absent other (List.mem_reverse.mp member)
  rw [lastRecord, List.reverse_append, List.reverse_cons, List.append_assoc, List.findSome?_append,
    none, Option.none_or, List.singleton_append, List.findSome?_cons, record]

theorem Renders.of_isPrefix {pfo : List UInt8} {c : Nat} {data emitted : List UInt8}
    (renders : Renders pfo c (some data)) (begins : emitted <+: data) :
    Renders pfo c (some emitted) := by
  obtain ⟨offset, glyphs, lookup, glyphsEq, stands⟩ := renders
  exact ⟨offset, glyphs, lookup, glyphsEq, begins.trans stands⟩

/-- A font that was read keeps what was emitted for a codepoint, and so does every merge of it
in which no later font has the codepoint. -/
structure KeepsStream (read : Font) (c : Nat) (emitted : List UInt8) : Prop where
  record : ∃ data, read.record c = some data ∧ emitted <+: data
  merged : ∀ (cptOrder : DictOrder (Nat × Nat)) (glyphOrder : DictOrder (Nat × Glyph))
    (before behind : List Font) (merged : Font) (pfo : List UInt8),
    (∀ other ∈ before ++ behind, other.WellFormed ∧ other.compressed = read.compressed) →
    (∀ other ∈ behind, other.record c = none) →
    mergeAll cptOrder glyphOrder (before ++ read :: behind) = .ok merged →
    fontWrite merged = .ok pfo → Renders pfo c (some emitted)

/-- What a well-formed font has for a codepoint is carried over. -/
theorem keepsStream_iff {read : Font} (wellFormed : read.WellFormed) {c : Nat}
    {emitted : List UInt8} :
    KeepsStream read c emitted ↔ ∃ data, read.record c = some data ∧ emitted <+: data := by
  refine ⟨KeepsStream.record, fun kept => ⟨kept, ?_⟩⟩
  obtain ⟨data, record, begins⟩ := kept
  intro cptOrder glyphOrder before behind merged pfo others absent mergeRun writeRun
  have member {font : Font} (inFonts : font ∈ before ++ read :: behind) :
      font.WellFormed ∧ font.compressed = read.compressed := by
    rcases List.mem_append.mp inFonts with inBefore | inBehind
    · exact others font (List.mem_append_left _ inBefore)
    · rcases List.mem_cons.mp inBehind with rfl | later
      · exact ⟨wellFormed, rfl⟩
      · exact others font (List.mem_append_right _ later)
  obtain ⟨result, run, resultWellFormed, records⟩ := mergeAll_ok cptOrder glyphOrder
    (List.append_ne_nil_of_right_ne_nil before (List.cons_ne_nil read behind))
    (fun font inFonts => (member inFonts).1)
    (fun font inFonts other otherIn => (member inFonts).2.trans (member otherIn).2.symm)
  obtain rfl := Except.ok.inj (run.symm.trans mergeRun)
  have renders := (fontWrite_ok writeRun).renders resultWellFormed c
  rw [records, lastRecord_of_absent record absent] at renders
  exact renders.of_isPrefix begins

end PfoMerge

namespace FontGen

/-- What is read at the offset of a codepoint begins with what was emitted if the glyph fits. -/
theorem Keyed.readGlyphData_compressed {font : Font} (compressed : font.rle4 = true)
    {sources : List (Nat × GIndex)} {keyed : List (GIndex × Glyph)}
    (keys : Keyed font sources keyed) {pair : Nat × Nat}
    (placed : pair ∈ placedFrom 4 (keyed.map Prod.snd)) :
    ∃ gindex first emitted data, (pair.1, gindex) ∈ sources ∧
      (codepointsOf sources gindex).head? = some first ∧
      font.glyphBits first gindex = .ok emitted ∧
      readGlyphData ((glyphTableOf (keyed.map Prod.snd)).drop pair.2) 0 = .ok data ∧
      5 ≤ data.length ∧ (emitted <+: data ↔ font.GlyphFits first gindex) := by
  obtain ⟨glyph, inGlyphs, here, rest, dropped⟩ := drop_glyphTableOf placed
  obtain ⟨⟨gindex, glyph⟩, inKeyed, rfl⟩ := List.mem_map.mp inGlyphs
  obtain ⟨first, head, bits⟩ := keys.bits _ inKeyed
  have codepoints := keys.codepoints _ inKeyed
  simp only at here dropped head bits codepoints
  rw [codepoints] at here head
  obtain ⟨w, h, body, dataEq, long, fits⟩ := glyphBits_compressed compressed bits
  refine ⟨gindex, first, glyph.data,
    (glyph.data ++ rest).take (5 + bitmapDataSz w.toNat h.toNat),
    mem_codepointsOf.mp here, head, bits, ?_, ?_, ?_⟩
  · rw [dropped, dataEq]
    exact readGlyphData_take w h (body ++ rest)
  · rw [List.length_take, List.length_append]
    omega
  · rw [List.prefix_take_iff, ← fits]
    exact and_iff_right (List.prefix_append _ _)

/-- A compressed font of version 3 is read, with a record for each codepoint. -/
theorem fontRead_compressed {font : Font} (version : font.version = 3)
    (compressed : font.rle4 = true) {sources : List (Nat × GIndex)}
    (small : ∀ source ∈ sources, source.1 < 65536) (distinct : (sources.map Prod.fst).Nodup)
    {bytes : List UInt8} (run : font.bitstring sources = .ok bytes) :
    ∃ read, fontRead bytes = .ok read ∧ read.WellFormed ∧
      ∀ source ∈ sources, ∃ first emitted data,
        (codepointsOf sources source.2).head? = some first ∧
        font.glyphBits first source.2 = .ok emitted ∧ read.record source.1 = some data ∧
        (emitted <+: data ↔ font.GlyphFits first source.2) := by
  obtain ⟨keyed, pairs, fontinfo, generated⟩ := bitstring_ok small run
  obtain ⟨headerEq, sizeEq⟩ := generated.header_eq version
  have codepoints := generated.distinct distinct
  let dataAt (offset : Nat) : List UInt8 :=
    ((readGlyphData ((glyphTableOf (keyed.map Prod.snd)).drop offset) 0).toOption).getD []
  have reads {pair : Nat × Nat} (placed : pair ∈ placedFrom 4 (keyed.map Prod.snd)) :
      readGlyphData ((glyphTableOf (keyed.map Prod.snd)).drop pair.2) 0 = .ok (dataAt pair.2) ∧
        5 ≤ (dataAt pair.2).length ∧ ∃ gindex first emitted, (pair.1, gindex) ∈ sources ∧
          (codepointsOf sources gindex).head? = some first ∧
          font.glyphBits first gindex = .ok emitted ∧
          (emitted <+: dataAt pair.2 ↔ font.GlyphFits first gindex) := by
    obtain ⟨gindex, first, emitted, data, source, head, bits, read, long, fits⟩ :=
      generated.readGlyphData_compressed compressed placed
    have dataEq : dataAt pair.2 = data := by
      simp only [dataAt, read]
      rfl
    rw [dataEq]
    exact ⟨read, long, gindex, first, emitted, source, head, bits, fits⟩
  rw [generated.bytes_eq] at headerEq ⊢
  obtain ⟨found, items, read, done, perm⟩ :=
    fontRead_placed generated.placed headerEq sizeEq rfl rfl
    generated.fits fun pair placed => (reads placed).1
  have itemsDistinct : (items.map Prod.fst).Nodup := by
    rw [(perm.map Prod.fst).nodup_iff, map_fst_placedFrom]
    exact codepoints
  refine ⟨_, read, ?_, ?_⟩
  · apply done.wellFormed _ itemsDistinct
    · exact fun item member => (reads (perm.mem_iff.mp member)).2.1
    · intro item member
      obtain ⟨-, -, gindex, -, -, source, -⟩ := reads (perm.mem_iff.mp member)
      exact small _ source
  · rintro ⟨c, gindex⟩ inSources
    obtain ⟨entry, inKeyed, rfl⟩ := List.mem_map.mp
      ((generated.mem_keys gindex).mpr (List.mem_map.mpr ⟨_, inSources, rfl⟩))
    have here : c ∈ entry.2.codepoints := by
      rw [generated.codepoints entry inKeyed]
      exact mem_codepointsOf.mpr inSources
    obtain ⟨offset, placed⟩ := exists_placed 4 (List.mem_map_of_mem inKeyed) here
    obtain ⟨-, -, otherIndex, first, emitted, source, head, bits, fits⟩ := reads placed
    have same := (Prod.mk.inj (List.inj_on_of_nodup_map distinct source inSources rfl)).2
    subst same
    exact ⟨first, emitted, dataAt offset, head, bits,
      done.recordOf_eq itemsDistinct (perm.mem_iff.mpr placed), fits⟩

/-- The wildcard as a box of four pixels, and a cross of three by three pixels. -/
def crossFont : Font where
  version := 3
  maxHeight := 14
  rle4 := true
  shift := (0, 0)
  render := fun _ gindex =>
    if gindex = 0 then ⟨4, 1, 0, 0, 5, [true, true, true, true], rfl⟩
    else ⟨3, 3, 0, 0, 4, [true, false, true, false, true, false, true, false, true], rfl⟩

def boxSources : List (Nat × GIndex) :=
  [(0x25AF, .face 0)]

def boxBytes : List UInt8 :=
  ((crossFont.bitstring boxSources).toOption).getD []

def crossSources : List (Nat × GIndex) :=
  [(0x25AF, .face 0), (0xD7, .face 1)]

def crossBytes : List UInt8 :=
  ((crossFont.bitstring crossSources).toOption).getD []

end FontGen

end Elbbep
