import Elbbep.ComposedFonts
import Elbbep.InPlaceDecoding

/-!
# Fonts that can be written

Neither `fontgen.py` nor `font_write` fails on a font with room left: with few codepoints in each
bucket, and tables and glyphs within the fields for their offsets.
-/

namespace Elbbep

open PythonStruct HashChains

theorem exists_ok_bind {ε α β : Type} {first : Except ε α} {rest : α → Except ε β} {value : α}
    (run : first = .ok value) (runs : ∃ result, rest value = .ok result) :
    ∃ result, first.bind rest = .ok result := by
  rw [run]
  exact runs

namespace PfoMerge

/-! ## The tables -/

/-- The tables of few codepoints are short. -/
theorem binOffset_lt (chainItem : ChainItem) {pairs : List (Nat × Nat)}
    (few : pairs.length ≤ 10922) (index : Nat) :
    binOffset chainItem pairs index < 65536 := by
  have count : (inBucketOrder binNo index pairs).length ≤ pairs.length := by
    rw [(inBucketOrder_perm_filter binNo index pairs).length_eq]
    exact List.length_filter_le _ _
  have size : chainItem.size ≤ 6 := by cases chainItem <;> decide
  rw [binOffset, chainOffset, chains_eq_flatMap,
    length_flatMap_uniform fun pair _ => chainItem.length_encode pair]
  calc chainItem.size * (inBucketOrder binNo index pairs).length
      ≤ 6 * 10922 := Nat.mul_le_mul size (count.trans few)
    _ < 65536 := by decide

theorem directory_ok (chainItem : ChainItem) {pairs : List (Nat × Nat)}
    (few : pairs.length ≤ 10922) (counts : ∀ index, (bin pairs index).length < 256) :
    ∃ acc, (List.range hashtableDirectorySize).foldlM
      (addDirectoryItem (chainState chainItem pairs)) ([], 0) = .ok acc :=
  ⟨_, foldlM_addDirectoryItem_fits (by decide) (fun index _ => counts index)
    fun index _ => binOffset_lt chainItem few index⟩

/-! ## `font_write` -/

namespace Font

/-- A font with room left in its file. -/
structure Writable (font : Font) : Prop where
  height : font.maxHeight < 256
  wildcard : font.wildcard < 65536
  few : font.codepoints.length ≤ 10922
  short : ∀ index, (hashed font.codepoints index).length < offsetTableMaxSize
  near : 4 + font.bitmapdataLength < 4294967296

variable {font : Font}

theorem Writable.fits (writable : font.Writable) (wellFormed : font.WellFormed) :
    ∀ pair ∈ font.pairs, font.chainItem.Fits pair := by
  intro pair member
  have inFont : pair.1 ∈ font.codepoints :=
    pairs_codepoints.mem_iff.mp (List.mem_map_of_mem member)
  obtain ⟨entry, inGlyphs, here⟩ := List.mem_flatMap.mp inFont
  refine ⟨wellFormed.codepoint_lt entry inGlyphs _ here, ?_⟩
  cases narrow : font.chainItem with
  | hh => exact Font.offset_lt wellFormed.long narrow pair member
  | hl =>
      obtain ⟨glyph, -, ends⟩ := offset_add_length_le (font.pairs_perm.mem_iff.mp member)
      rw [font.length_glyphTable] at ends
      have near := writable.near
      change pair.2 < 256 ^ 4
      omega

end Font

/-- A font with room left is written. -/
theorem fontWrite_writable {font : Font} (wellFormed : font.WellFormed)
    (writable : font.Writable) : ∃ bytes, fontWrite font = .ok bytes := by
  have count : font.pairs.length ≤ 10922 := by
    rw [← List.length_map Prod.fst, Font.pairs_codepoints.length_eq]
    exact writable.few
  rw [fontWrite_succeeds_iff wellFormed.nonempty]
  constructor
  · rintro ⟨index, full⟩
    exact absurd (writable.short index) (by omega)
  · rintro (header | ⟨pair, member, tooFar⟩ | ⟨index, -, tooLong⟩)
    · exact header ⟨writable.height, by omega, writable.wildcard⟩
    · exact tooFar (writable.fits wellFormed pair member)
    · exact absurd (binOffset_lt font.chainItem count index) (by omega)

end PfoMerge

/-! ## `fontgen.py` -/

namespace FontGen

open PfoMerge

variable {font : Font}

/-- All glyphs of the sources can be packed, under whatever codepoint they come first. -/
def Font.Packs (font : Font) (sources : List (Nat × GIndex)) : Prop :=
  ∀ source ∈ sources, ∀ first, ∃ data, font.glyphBits first source.2 = .ok data

theorem addGlyph_packs {state : BuildState} {source : Nat × GIndex}
    (packs : ∀ first, ∃ data, font.glyphBits first source.2 = .ok data) :
    ∃ next, font.addGlyph state source = .ok next := by
  unfold Font.addGlyph
  split
  · obtain ⟨data, bits⟩ := packs source.1
    rw [bits]
    exact ⟨_, rfl⟩
  · exact ⟨_, rfl⟩

theorem foldlM_addGlyph_packs {sources : List (Nat × GIndex)} (packs : font.Packs sources)
    (state : BuildState) : ∃ final, sources.foldlM font.addGlyph state = .ok final := by
  induction sources generalizing state with
  | nil => exact ⟨state, rfl⟩
  | cons source sources ih =>
      obtain ⟨next, step⟩ : ∃ next, font.addGlyph state source = .ok next :=
        addGlyph_packs (packs source List.mem_cons_self)
      rw [List.foldlM_cons, step]
      exact ih (fun other member => packs other (List.mem_cons_of_mem source member)) next

theorem foldlM_addToOffsetTable_fits {chainItem : ChainItem} {entries later : List (Nat × Nat)}
    (fits : ∀ entry ∈ later, chainItem.Fits entry) :
    later.foldlM (addToOffsetTable 2 (chainItem.size - 2)) (offsetTablesOf chainItem entries) =
      .ok (offsetTablesOf chainItem (entries ++ later)) := by
  induction later generalizing entries with
  | nil =>
      rw [List.append_nil]
      rfl
  | cons entry later ih =>
      have step : addToOffsetTable 2 (chainItem.size - 2) (offsetTablesOf chainItem entries) entry =
          .ok (offsetTablesOf chainItem (entries ++ [entry])) := by
        rw [addToOffsetTable, packEntry_eq, ChainItem.pack_eq,
          if_pos (fits entry List.mem_cons_self), offsetTablesOf, offsetTablesOf, chain_concat,
          length_bin_concat]
        rfl
      rw [List.foldlM_cons, step]
      change later.foldlM _ _ = _
      rw [ih fun other member => fits other (List.mem_cons_of_mem entry member), List.append_assoc,
        List.singleton_append]

theorem glyphEntries_codepoints {sources : List (Nat × GIndex)} {state final : BuildState}
    (run : sources.foldlM font.addGlyph state = .ok final) :
    final.glyphEntries.map Prod.fst = state.glyphEntries.map Prod.fst ++ sources.map Prod.fst := by
  induction sources generalizing state with
  | nil =>
      cases run
      simp
  | cons source sources ih =>
      rw [List.foldlM_cons] at run
      obtain ⟨next, step, run⟩ := bind_ok run
      have added : next.glyphEntries.map Prod.fst = state.glyphEntries.map Prod.fst ++ [source.1] := by
        unfold Font.addGlyph at step
        split at step
        · obtain ⟨data, -, step⟩ := bind_ok step
          cases step
          simp [BuildState.addEntry]
        · cases step
          simp [BuildState.addEntry]
      rw [ih run, added, List.append_assoc, List.map_cons, List.singleton_append]

/-- No glyph is longer than a bitmap of 255 by 255 pixels. -/
theorem length_glyphBits {first : Nat} {gindex : GIndex} {data : List UInt8}
    (bits : font.glyphBits first gindex = .ok data) : 5 ≤ data.length ∧ data.length ≤ 8137 := by
  cases compressed : font.rle4 with
  | false =>
      obtain ⟨w, h, rest, -, length⟩ := glyphBits_isRecord compressed bits
      have area : w.toNat * h.toNat ≤ 255 * 255 :=
        Nat.mul_le_mul (Nat.le_of_lt_succ w.toNat_lt) (Nat.le_of_lt_succ h.toNat_lt)
      omega
  | true =>
      cases gindex with
      | zeroWidth =>
          rw [glyphBits_zeroWidth] at bits
          cases bits
          decide
      | face gindex =>
          obtain ⟨⟨glyphPacked, height⟩, packRun, bits⟩ := bind_ok bits
          obtain ⟨header, headerRun, bits⟩ := bind_ok bits
          obtain ⟨w, h, l, b, a, rfl, -, heightEq⟩ := packGlyphHeader_ok headerRun
          cases bits
          have length : glyphPacked.length ≤ 128 := by
            rw [compressed] at packRun
            by_cases inked : (font.render first gindex).height ≠ 0 ∧
                (font.render first gindex).width ≠ 0
            · have packed := ((packBitmap_rle4 inked).mp packRun).2
              have units : height = (rleUnitList (font.render first gindex).glyphBitmap).length :=
                congrArg Prod.snd packed
              have stream : glyphPacked = (compressGlyphRle4 _).1 := congrArg Prod.fst packed
              have bound := h.toNat_lt
              rw [stream, length_compressGlyphRle4]
              omega
            · rw [packBitmap, if_neg inked] at packRun
              cases packRun
              decide
          simp only [List.length_append, List.length_cons, List.length_nil]
          omega

theorem length_flatMap_le {α β : Type} {f : α → List β} {items : List α} {bound : Nat}
    (short : ∀ item ∈ items, (f item).length ≤ bound) :
    (items.flatMap f).length ≤ items.length * bound := by
  rw [List.length_flatMap, ← smul_eq_mul, ← List.length_map fun item => (f item).length]
  apply List.sum_le_card_nsmul
  intro length member
  obtain ⟨item, inItems, rfl⟩ := List.mem_map.mp member
  exact short item inItems

namespace Built

variable {sources : List (Nat × GIndex)} {keyed : List (GIndex × Glyph)} {state : BuildState}
  (built : Built font sources keyed state) (few : sources.length ≤ 10922)

include built

theorem length_data {entry : GIndex × Glyph} (member : entry ∈ keyed) :
    5 ≤ entry.2.data.length ∧ entry.2.data.length ≤ 8137 := by
  obtain ⟨first, -, bits⟩ := built.bits entry member
  exact length_glyphBits bits

include few

theorem length_glyphTable : (glyphTableOf (keyed.map Prod.snd)).length < 4294967296 := by
  have glyphs : keyed.length ≤ 10922 := by
    have subset := List.Nodup.subperm built.keys_nodup fun gindex => (built.mem_keys gindex).mp
    have length := subset.length_le
    rw [List.length_map, List.length_map] at length
    omega
  have data : (keyed.flatMap fun entry => entry.2.data).length ≤ keyed.length * 8137 :=
    length_flatMap_le fun entry member => (built.length_data member).2
  rw [glyphTableOf, List.length_append, flatMap_data]
  simp only [List.length_cons, List.length_nil]
  omega

theorem fits (small : ∀ source ∈ sources, source.1 < 65536)
    {pair : Nat × Nat} (placed : pair ∈ placedFrom 4 (keyed.map Prod.snd)) :
    (font.offsetItem (keyed.map Prod.snd)).Fits pair := by
  constructor
  · obtain ⟨before, glyph, behind, split, here, -⟩ := mem_placedFrom.mp placed
    obtain ⟨entry, inKeyed, rfl⟩ := List.mem_map.mp (split ▸ (by simp) : glyph ∈ keyed.map Prod.snd)
    rw [built.codepoints entry inKeyed] at here
    exact small _ (mem_codepointsOf.mp here)
  · have nonempty : ∀ glyph ∈ keyed.map Prod.snd, glyph.data ≠ [] := by
      intro glyph member
      obtain ⟨entry, inKeyed, rfl⟩ := List.mem_map.mp member
      exact List.ne_nil_of_length_pos (by have := built.length_data inKeyed; omega)
    cases narrow : font.offset16 (keyed.map Prod.snd) with
    | true =>
        rw [Font.offsetItem, narrow]
        exact offset_lt nonempty narrow pair placed
    | false =>
        obtain ⟨glyph, -, ends⟩ := offset_add_length_le placed
        have near := built.length_glyphTable few
        rw [Font.offsetItem, narrow]
        change pair.2 < 256 ^ 4
        omega

end Built

/-- A font with packable glyphs and room left is generated. -/
theorem bitstring_packs (version : font.version = 3) (height : font.maxHeight < 256)
    {sources : List (Nat × GIndex)} (small : ∀ source ∈ sources, source.1 < 65536)
    (packs : font.Packs sources) (few : sources.length ≤ 10922)
    (short : ∀ index, (hashed (sources.map Prod.fst) index).length < 256) :
    ∃ bytes, font.bitstring sources = .ok bytes := by
  obtain ⟨state, stateRun⟩ := foldlM_addGlyph_packs packs .start
  obtain ⟨keyed, built⟩ := Built.start.foldlM_addGlyph small stateRun
  rw [List.nil_append] at built
  have sorted := List.perm_insertionSort (fun a b : Nat × Nat => a.1 ≤ b.1) state.glyphEntries
  have codepoints : ((state.glyphEntries.insertionSort fun a b => a.1 ≤ b.1).map Prod.fst).Perm
      (sources.map Prod.fst) := by
    have entries : state.glyphEntries.map Prod.fst = sources.map Prod.fst :=
      glyphEntries_codepoints stateRun
    rw [← entries]
    exact sorted.map Prod.fst
  have fits : ∀ entry ∈ state.glyphEntries.insertionSort fun a b => a.1 ≤ b.1,
      (font.offsetItem (keyed.map Prod.snd)).Fits entry := by
    intro entry member
    exact built.fits few small ((sorted.trans built.entries_perm).mem_iff.mp member)
  have count : (state.glyphEntries.insertionSort fun a b => a.1 ≤ b.1).length ≤ 10922 := by
    rw [sorted.length_eq, built.length_entries]
    exact few
  have tablesRun : (state.glyphEntries.insertionSort fun a b => a.1 ≤ b.1).foldlM
      (addToOffsetTable 2 ((font.offsetItem (keyed.map Prod.snd)).size - 2))
      (offsetTablesOf (font.offsetItem (keyed.map Prod.snd)) []) =
        .ok (offsetTablesOf (font.offsetItem (keyed.map Prod.snd)) _) :=
    foldlM_addToOffsetTable_fits fits
  obtain ⟨acc, directoryRun⟩ := directory_ok (font.offsetItem (keyed.map Prod.snd)) count fun index =>
    (length_bin_eq codepoints index).trans_lt (short index)
  have features : font.features (keyed.map Prod.snd) < 256 := by
    rw [Font.features]
    split <;> split <;> decide
  obtain ⟨info, infoRun⟩ : ∃ info, fontinfoBits font.version font.maxHeight state.numberOfGlyphs 2
      (font.features (keyed.map Prod.snd)) = .ok info := by
    rw [version, fontinfoBits_three, packHeader_eq, built.number_eq]
    exact ⟨_, if_pos ⟨height, by omega, by decide, features⟩⟩
  have lengthEq : (state.glyphTable.map List.length).sum =
      (glyphTableOf (keyed.map Prod.snd)).length := by
    rw [built.glyphTable_eq, glyphTableOf, List.length_append, List.length_flatMap, List.map_cons,
      List.sum_cons, List.map_map, List.map_map]
    rfl
  have narrow : decide (font.version = 3 ∧ (glyphTableOf (keyed.map Prod.snd)).length < 65536) =
      font.offset16 (keyed.map Prod.snd) := rfl
  have sizeEq : (if font.offset16 (keyed.map Prod.snd) then 2 else 4) =
      (font.offsetItem (keyed.map Prod.snd)).size - 2 := by
    rw [Font.offsetItem]
    cases font.offset16 (keyed.map Prod.snd) <;> rfl
  have entrySize : (font.offsetItem (keyed.map Prod.snd)).size - 2 + 2 =
      (font.offsetItem (keyed.map Prod.snd)).size := by
    cases font.offsetItem (keyed.map Prod.snd) <;> rfl
  refine exists_ok_bind stateRun ?_
  simp only [lengthEq, built.codepointBytes_eq, narrow, sizeEq, entrySize]
  refine exists_ok_bind tablesRun ?_
  rw [addToHashTable_eq, List.nil_append]
  refine exists_ok_bind directoryRun ?_
  exact exists_ok_bind infoRun ⟨_, rfl⟩

end FontGen

end Elbbep
