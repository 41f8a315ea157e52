import Elbbep.MisreadChains

/-!
# Reading version 2 files

A version 2 file of `fontgen.py` is read with chain items that are too short.  Each bucket
with more than one codepoint gives codepoints that are halves of offsets.  There are too
many of them for the size that the glyphs can have, so the assignment can only survive where
every codepoint is alone in its bucket.
-/

namespace Elbbep

namespace PfoMerge

open PythonStruct HashChains

variable {pairs : List (Nat × Nat)}

/-! ## Positions -/

theorem mem_positions {position : Nat × Nat} : position ∈ positions pairs ↔
    position.1 < hashtableDirectorySize ∧ position.2 < (bin pairs position.1).length := by
  obtain ⟨index, itemIdx⟩ := position
  simp only [positions, List.mem_flatMap, List.mem_range, List.mem_map, Prod.mk.injEq]
  grind

theorem sum_length_bin (pairs : List (Nat × Nat)) :
    ∑ index ∈ Finset.range hashtableDirectorySize, (bin pairs index).length = pairs.length := by
  have perm := (inBucketOrder_perm fun pair (_ : pair ∈ pairs) => binNo_lt pair).length_eq
  rw [inBucketOrder, List.length_flatMap] at perm
  rw [← perm]
  rfl

theorem length_positions (pairs : List (Nat × Nat)) :
    (positions pairs).length = pairs.length := by
  have total := sum_length_bin pairs
  rw [← total, positions, List.length_flatMap]
  simp only [List.length_map, List.length_range]
  rfl

/-- A word of a bucket. -/
theorem getD_binWords {index itemIdx : Nat} {pair : Nat × Nat}
    (here : (bin pairs index)[itemIdx]? = some pair) {word : Nat} (small : word < 3) :
    (binWords pairs index).getD (3 * itemIdx + word) 0 = (itemWords pair).getD word 0 := by
  have item := take_drop_flatMap (fun other (_ : other ∈ bin pairs index) =>
    show (itemWords other).length = 3 from rfl) here []
  rw [List.append_nil] at item
  rw [List.getD_eq_getElem?_getD, List.getD_eq_getElem?_getD, ← item,
    List.getElem?_take_of_lt small, List.getElem?_drop, Nat.mul_comm itemIdx]
  rfl

/-! ## Too many halves of offsets -/

/-- The reading gives back the codepoints. -/
structure SameCodepts (pairs : List (Nat × Nat)) : Prop where
  sorted : pairs.Pairwise fun pair next => pair.1 ≤ next.1
  distinct : (pairs.map Prod.fst).Nodup
  covered : ∀ pair ∈ pairs, ∃ position ∈ positions pairs, (misreadAt pairs position).1 = pair.1
  known : ∀ position ∈ positions pairs, (misreadAt pairs position).1 ∈ pairs.map Prod.fst

namespace SameCodepts

/-- No codepoint is read twice. -/
theorem injective (same : SameCodepts pairs) {position other : Nat × Nat}
    (member : position ∈ positions pairs) (otherMember : other ∈ positions pairs)
    (eq : (misreadAt pairs position).1 = (misreadAt pairs other).1) : position = other := by
  have subset : pairs.map Prod.fst ⊆ (positions pairs).map fun position =>
      (misreadAt pairs position).1 := by
    intro c member
    obtain ⟨pair, inPairs, rfl⟩ := List.mem_map.mp member
    obtain ⟨position, inPositions, read⟩ := same.covered pair inPairs
    exact List.mem_map.mpr ⟨position, inPositions, read⟩
  have perm := (List.subperm_of_subset same.distinct subset).perm_of_length_le
    (by rw [List.length_map, List.length_map, length_positions])
  exact List.inj_on_of_nodup_map (perm.nodup_iff.mp same.distinct) member otherMember eq

/-- A small codepoint is the first one of its bucket. -/
theorem misreadAt_small (same : SameCodepts pairs) {c : Nat} (member : c ∈ pairs.map Prod.fst)
    (small : c < hashtableDirectorySize) :
    (c, 0) ∈ positions pairs ∧ (misreadAt pairs (c, 0)).1 = c := by
  obtain ⟨pair, inPairs, rfl⟩ := List.mem_map.mp member
  have inBin : pair ∈ bin pairs pair.1 := mem_bucket.mpr ⟨inPairs, Nat.mod_eq_of_lt small⟩
  have sortedBin : (bin pairs pair.1).Pairwise fun pair next => pair.1 ≤ next.1 :=
    same.sorted.filter _
  cases binEq : bin pairs pair.1 with
  | nil =>
      rw [binEq] at inBin
      cases inBin
  | cons first rest =>
      have firstMember : first ∈ bin pairs pair.1 := binEq ▸ List.mem_cons_self
      have hash : first.1 % hashtableDirectorySize = pair.1 := (mem_bucket.mp firstMember).2
      have le : first.1 ≤ pair.1 := by
        rw [binEq] at inBin sortedBin
        rcases List.mem_cons.mp inBin with isFirst | later
        · exact (congrArg Prod.fst isFirst).ge
        · exact (List.pairwise_cons.mp sortedBin).1 pair later
      refine ⟨mem_positions.mpr ⟨small, by simp [binEq]⟩, ?_⟩
      have here : (bin pairs pair.1)[0]? = some first := by
        rw [binEq]
        rfl
      rw [Nat.mod_eq_of_lt (by omega)] at hash
      exact (getD_binWords here (show 0 < 3 by decide)).trans hash

/-- The number of codepoints of a bucket that are the upper halves of offsets. -/
def halves (pairs : List (Nat × Nat)) (index : Nat) : Nat :=
  ((bin pairs index).length + 1) / 3

/-- The position of such a codepoint. -/
theorem misreadAt_half {index k : Nat} (inRange : index < hashtableDirectorySize)
    (inside : k < halves pairs index) : (index, 3 * k + 1) ∈ positions pairs ∧
      ∃ pair ∈ pairs, (misreadAt pairs (index, 3 * k + 1)).1 = pair.2 / 65536 := by
  unfold halves at inside
  have bound : 2 * k < (bin pairs index).length := by omega
  refine ⟨mem_positions.mpr ⟨inRange, show 3 * k + 1 < (bin pairs index).length by omega⟩,
    (bin pairs index)[2 * k], (mem_bucket.mp (List.getElem_mem bound)).1, ?_⟩
  have word := getD_binWords (List.getElem?_eq_getElem bound) (show 2 < 3 by decide)
  rw [show 3 * (2 * k) + 2 = 2 * (3 * k + 1) by omega] at word
  exact word

/-- These codepoints are different, and none of them is small. -/
theorem sum_halves (same : SameCodepts pairs) {bound : Nat}
    (offsets : ∀ pair ∈ pairs, pair.2 / 65536 ≤ bound) :
    ∑ index ∈ Finset.range hashtableDirectorySize, halves pairs index ≤
      bound + 1 - hashtableDirectorySize := by
  apply sum_le_of_injective fun index k => (misreadAt pairs (index, 3 * k + 1)).1
  · intro index inRange k inside
    obtain ⟨isPosition, pair, inPairs, read⟩ := misreadAt_half inRange inside
    constructor
    · by_contra small
      obtain ⟨isFirst, readFirst⟩ :=
        same.misreadAt_small (same.known _ isPosition) (Nat.lt_of_not_le small)
      have equal := congrArg Prod.snd (same.injective isPosition isFirst readFirst.symm)
      simp at equal
    · rw [read]
      exact offsets pair inPairs
  · intro index inRange k inside other otherRange otherK otherInside eq
    have equal := same.injective (misreadAt_half inRange inside).1
      (misreadAt_half otherRange otherInside).1 eq
    obtain ⟨indexEq, positionEq⟩ := Prod.mk.inj equal
    exact ⟨indexEq, by omega⟩

/-- Every codepoint is alone in its bucket. -/
theorem length_bin_le_one (same : SameCodepts pairs)
    (offsets : ∀ pair ∈ pairs, pair.2 ≤ 4 + 8137 * pairs.length) (index : Nat) :
    (bin pairs index).length ≤ 1 := by
  have halvesLe := same.sum_halves fun pair member =>
    Nat.div_le_div_right (offsets pair member)
  have total : pairs.length ≤
      3 * (∑ index ∈ Finset.range hashtableDirectorySize, halves pairs index) +
        hashtableDirectorySize := by
    rw [← sum_length_bin pairs, Finset.mul_sum]
    calc ∑ index ∈ Finset.range hashtableDirectorySize, (bin pairs index).length
        ≤ ∑ index ∈ Finset.range hashtableDirectorySize, (3 * halves pairs index + 1) := by
          apply Finset.sum_le_sum
          intro index _
          unfold halves
          omega
      _ = ∑ index ∈ Finset.range hashtableDirectorySize, 3 * halves pairs index +
            hashtableDirectorySize := by
          rw [Finset.sum_add_distrib, Finset.sum_const, Finset.card_range, smul_eq_mul,
            Nat.mul_one]
  have size : hashtableDirectorySize = 255 := rfl
  have none : ∑ index ∈ Finset.range hashtableDirectorySize, halves pairs index = 0 := by
    omega
  by_cases inRange : index < hashtableDirectorySize
  · have zero := Finset.sum_eq_zero_iff.mp none index (Finset.mem_range.mpr inRange)
    unfold halves at zero
    omega
  · have empty : bin pairs index = [] := by
      apply List.eq_nil_iff_forall_not_mem.mpr
      intro pair member
      exact inRange ((mem_bucket.mp member).2 ▸ binNo_lt pair)
    simp [empty]

end SameCodepts

/-! ## Codepoints that are alone in their buckets -/

theorem count_binNo (pairs : List (Nat × Nat)) (index : Nat) :
    (pairs.map binNo).count index = (bin pairs index).length := by
  rw [List.count, List.countP_map, bin, bucket, List.countP_eq_length_filter]
  rfl

theorem nodup_binNo_iff : (pairs.map binNo).Nodup ↔ ∀ index, (bin pairs index).length ≤ 1 := by
  rw [List.nodup_iff_count_le_one]
  simp only [count_binNo]

/-- The offsets lose their upper halves. -/
theorem mem_misread_iff (alone : ∀ index, (bin pairs index).length ≤ 1) (item : Nat × Nat) :
    item ∈ (positions pairs).map (misreadAt pairs) ↔
      ∃ pair ∈ pairs, item = (pair.1, pair.2 % 65536) := by
  have single {index : Nat} {pair : Nat × Nat} (here : (bin pairs index)[0]? = some pair) :
      misreadAt pairs (index, 0) = (pair.1, pair.2 % 65536) := by
    have codept := getD_binWords here (show 0 < 3 by decide)
    have offset := getD_binWords here (show 1 < 3 by decide)
    exact Prod.ext codept offset
  rw [List.mem_map]
  constructor
  · rintro ⟨⟨index, itemIdx⟩, member, rfl⟩
    obtain ⟨-, inside⟩ := mem_positions.mp member
    have first : itemIdx = 0 := by
      have := alone index
      simp only at inside
      omega
    subst first
    refine ⟨(bin pairs index)[0], (mem_bucket.mp (List.getElem_mem inside)).1, ?_⟩
    exact single (List.getElem?_eq_getElem inside)
  · rintro ⟨pair, member, rfl⟩
    have inBin : pair ∈ bin pairs (binNo pair) := mem_bucket.mpr ⟨member, rfl⟩
    obtain ⟨itemIdx, inside, here⟩ := List.mem_iff_getElem.mp inBin
    have first : itemIdx = 0 := by
      have := alone (binNo pair)
      omega
    subst first
    refine ⟨(binNo pair, 0), mem_positions.mpr ⟨binNo_lt pair, inside⟩, ?_⟩
    exact single (List.getElem?_eq_some_iff.mpr ⟨inside, here⟩)

theorem readGlyphData_of_isPrefix {data bytes : List UInt8} {dataStart : Nat}
    (record : IsRecord data) (stands : data <+: bytes.drop dataStart) :
    readGlyphData bytes dataStart = .ok data := by
  obtain ⟨rest, restEq⟩ := stands
  rw [readGlyphData_drop, ← restEq, readGlyphData_record record]

theorem isPrefix_of_readGlyphData {data bytes : List UInt8} {dataStart : Nat}
    (read : readGlyphData bytes dataStart = .ok data) : data <+: bytes.drop dataStart := by
  unfold readGlyphData at read
  split at read
  next =>
    rw [← Except.ok.inj read, slice_eq_take_drop]
    exact List.take_prefix _ _
  next => cases read

theorem length_le_of_isRecord {data : List UInt8} (record : IsRecord data) :
    data.length ≤ 8137 := by
  obtain ⟨width, height, rest, -, length⟩ := record
  have product : width.toNat * height.toNat ≤ 255 * 255 :=
    Nat.mul_le_mul (Nat.le_of_lt_succ width.toNat_lt) (Nat.le_of_lt_succ height.toNat_lt)
  omega

theorem length_flatMap_data_le {glyphs : List Glyph}
    (records : ∀ glyph ∈ glyphs, IsRecord glyph.data) :
    (glyphs.flatMap Glyph.data).length ≤ 8137 * glyphs.length := by
  induction glyphs with
  | nil => simp
  | cons glyph glyphs ih =>
      have later := ih fun other member => records other (List.mem_cons_of_mem _ member)
      have here := length_le_of_isRecord (records glyph List.mem_cons_self)
      rw [List.flatMap_cons, List.length_append, List.length_cons]
      omega

theorem offset_le {glyphs : List Glyph} (records : ∀ glyph ∈ glyphs, IsRecord glyph.data)
    {pair : Nat × Nat} (member : pair ∈ placedFrom 4 glyphs) :
    pair.2 ≤ 4 + 8137 * glyphs.length := by
  obtain ⟨before, glyph, behind, rfl, -, offset⟩ := mem_placedFrom.mp member
  have bound := length_flatMap_data_le fun other inBefore =>
    records other (List.mem_append_left _ inBefore)
  rw [offset, List.length_append]
  omega

end PfoMerge

namespace FontGen

open PythonStruct HashChains PfoMerge

/-! ## The file -/

def headerBytesTwo (maxHeight numberOfGlyphs : Nat) : List UInt8 :=
  [2, UInt8.ofNat maxHeight] ++ encodeH numberOfGlyphs ++ encodeH wildcardCodepoint ++ [255, 2]

theorem fontinfoBits_two (maxHeight numberOfGlyphs features : Nat) :
    fontinfoBits 2 maxHeight numberOfGlyphs 2 features =
      if maxHeight < 256 ∧ numberOfGlyphs < 65536 then .ok (headerBytesTwo maxHeight numberOfGlyphs)
      else .error .structError := by
  rw [fontinfoBits, packB_natCast maxHeight, packH_natCast numberOfGlyphs]
  by_cases height : maxHeight < 256
  · by_cases count : numberOfGlyphs < 65536
    · simp only [height, count, if_true, and_self]
      rfl
    · simp only [height, count, if_true, if_false, and_false]
      rfl
  · simp only [height, if_false, false_and]
    rfl

variable {font : Font} {sources : List (Nat × GIndex)} {bytes : List UInt8}
  {keyed : List (GIndex × Glyph)} {pairs : List (Nat × Nat)} {fontinfo : List UInt8}

namespace Font.Generated

theorem offsetItem_two (version : font.version = 2) (glyphs : List Glyph) :
    font.offsetItem glyphs = .hl := by
  simp [Font.offsetItem, Font.offset16, version]

/-- The header that `font_read` finds in a file of version 2. -/
theorem header_two (generated : font.Generated sources bytes keyed pairs fontinfo)
    (version : font.version = 2) :
    readHeader bytes = .ok ⟨8, font.maxHeight, pairs.length, wildcardCodepoint, .hh, false⟩ ∧
      8 = fontinfo.length := by
  have run := generated.fontinfo_eq
  rw [version, fontinfoBits_two] at run
  split at run
  next small =>
    cases run
    refine ⟨?_, rfl⟩
    have heightEq := toNat_ofNat_byte small.1
    have countEq := u16_encodeH small.2
    have wildEq : u16 (UInt8.ofNat wildcardCodepoint) (UInt8.ofNat (wildcardCodepoint / 256)) =
      wildcardCodepoint := u16_encodeH (by decide)
    rw [generated.bytes_eq, pfoFile]
    simp [headerBytesTwo, encodeH, readHeader, slice, heightEq, countEq, wildEq]
  next => cases run

/-- The glyphs stand behind the items. -/
theorem drop_glyphs (generated : font.Generated sources bytes keyed pairs fontinfo)
    (version : font.version = 2) (offset : Nat) :
    bytes.drop (8 + 255 * 4 + 6 * pairs.length + offset) =
      (glyphTableOf (keyed.map Prod.snd)).drop offset := by
  let header : Header := ⟨8, font.maxHeight, pairs.length, wildcardCodepoint, .hl, false⟩
  have base : 8 + 255 * 4 + 6 * pairs.length = header.glyphsBase := by
    change _ = 8 + 255 * 4 + pairs.length * 6
    omega
  rw [base, generated.bytes_eq, offsetItem_two version]
  exact glyphsBase_pfoFile (generated.header_two version).2 rfl rfl offset

theorem mem_codepoints (generated : font.Generated sources bytes keyed pairs fontinfo) (c : Nat) :
    c ∈ pairs.map Prod.fst ↔ c ∈ sources.map Prod.fst := by
  rw [(generated.placed.map Prod.fst).mem_iff, map_fst_placedFrom, List.mem_flatMap]
  constructor
  · rintro ⟨glyph, member, here⟩
    obtain ⟨entry, inKeyed, rfl⟩ := List.mem_map.mp member
    rw [generated.codepoints entry inKeyed, mem_codepointsOf] at here
    exact List.mem_map.mpr ⟨_, here, rfl⟩
  · intro member
    obtain ⟨source, inSources, rfl⟩ := List.mem_map.mp member
    obtain ⟨entry, inKeyed, same⟩ := List.mem_map.mp
      ((generated.mem_keys source.2).mpr (List.mem_map_of_mem inSources))
    refine ⟨entry.2, List.mem_map_of_mem inKeyed, ?_⟩
    rw [generated.codepoints entry inKeyed, mem_codepointsOf, same]
    exact inSources

theorem codepoints_perm (generated : font.Generated sources bytes keyed pairs fontinfo)
    (distinct : (sources.map Prod.fst).Nodup) :
    (pairs.map Prod.fst).Perm (sources.map Prod.fst) := by
  apply (List.perm_ext_iff_of_nodup ?_ distinct).mpr generated.mem_codepoints
  rw [(generated.placed.map Prod.fst).nodup_iff, map_fst_placedFrom]
  exact generated.distinct distinct

theorem length_keyed_le (generated : font.Generated sources bytes keyed pairs fontinfo) :
    keyed.length ≤ pairs.length := by
  have subset : keyed.map Prod.fst ⊆ sources.map Prod.snd :=
    fun gindex member => (generated.mem_keys gindex).mp member
  have le := (List.subperm_of_subset generated.keys_nodup subset).length_le
  rw [List.length_map, List.length_map] at le
  rw [generated.length_eq]
  exact le

end Font.Generated

/-! ## Reading the file -/

/-- The file is read to exactly the records of these glyphs. -/
def ReadsRecords (glyphs : List Glyph) (bytes : List UInt8) : Prop :=
  ∃ read, fontRead bytes = .ok read ∧
    ∀ c data, Assigns (read.glyphs.map Prod.snd) c data ↔ Assigns glyphs c data

/-- Each record also stands where it would be if the items of the chains were two bytes
shorter, and its offset had only two bytes. -/
def StandsShort (glyphs : List Glyph) (count : Nat) (bytes : List UInt8) : Prop :=
  ∀ before glyph behind, glyphs = before ++ glyph :: behind →
    glyph.data <+: bytes.drop
      (8 + 255 * 4 + 4 * count + (4 + (before.flatMap Glyph.data).length) % 65536)

/-- How `font_read` sees a file of version 2. -/
theorem readsRecords_iff (generated : font.Generated sources bytes keyed pairs fontinfo)
    (version : font.version = 2) : ReadsRecords (keyed.map Prod.snd) bytes ↔
      (∀ item ∈ (positions pairs).map (misreadAt pairs), ∃ data,
        readGlyphData bytes (8 + 255 * 4 + 4 * pairs.length + item.2) = .ok data ∧
        Assigns (keyed.map Prod.snd) item.1 data) ∧
      ∀ c data, Assigns (keyed.map Prod.snd) c data → ∃ offset,
        (c, offset) ∈ (positions pairs).map (misreadAt pairs) ∧
        readGlyphData bytes (8 + 255 * 4 + 4 * pairs.length + offset) = .ok data := by
  let header : Header := ⟨8, font.maxHeight, pairs.length, wildcardCodepoint, .hh, false⟩
  obtain ⟨headerEq, sizeEq⟩ := generated.header_two version
  have itemEq := Font.Generated.offsetItem_two version (keyed.map Prod.snd)
  have fits := generated.fits
  have bytesEq := generated.bytes_eq
  rw [itemEq] at fits bytesEq
  have loop : (List.range hashtableDirectorySize).foldlM (header.readChain bytes) [] =
      ((positions pairs).map (misreadAt pairs)).foldlM
        (readChainItem bytes header.glyphsBase) [] := by
    rw [bytesEq]
    exact foldlM_readChain_misread sizeEq rfl fits
  have base : header.glyphsBase = 8 + 255 * 4 + 4 * pairs.length := by
    change 8 + 255 * 4 + pairs.length * 4 = _
    omega
  have reading := fontRead_assigns_iff headerEq loop (Assigns (keyed.map Prod.snd))
  rw [base] at reading
  exact reading

section Records

variable (generated : font.Generated sources bytes keyed pairs fontinfo)
  (records : ∀ glyph ∈ keyed.map Prod.snd, IsRecord glyph.data)
  (distinct : (sources.map Prod.fst).Nodup)

include generated

/-- A codepoint has its record at its offset. -/
theorem assigns_placed {pair : Nat × Nat} (member : pair ∈ pairs) :
    ∃ before glyph behind, keyed.map Prod.snd = before ++ glyph :: behind ∧
      pair.2 = 4 + (before.flatMap Glyph.data).length ∧
      Assigns (keyed.map Prod.snd) pair.1 glyph.data := by
  obtain ⟨before, glyph, behind, split, here, offset⟩ :=
    mem_placedFrom.mp (generated.placed.mem_iff.mp member)
  exact ⟨before, glyph, behind, split, offset, glyph, by simp [split], here, rfl⟩

include distinct

theorem assigns_unique {c : Nat} {data other : List UInt8}
    (assigned : Assigns (keyed.map Prod.snd) c data)
    (otherAssigned : Assigns (keyed.map Prod.snd) c other) : data = other := by
  obtain ⟨glyph, member, here, rfl⟩ := assigned
  obtain ⟨otherGlyph, otherMember, otherHere, rfl⟩ := otherAssigned
  have codepts := generated.distinct distinct
  have first := recordOf_of_distinct codepts member here
  have second := recordOf_of_distinct codepts otherMember otherHere
  exact Option.some.inj (first.symm.trans second)

theorem alone_iff : (sources.map fun source => source.1 % 255).Nodup ↔
    ∀ index, (bin pairs index).length ≤ 1 := by
  have perm := (generated.codepoints_perm distinct).map (· % 255)
  rw [List.map_map, List.map_map] at perm
  rw [← nodup_binNo_iff]
  exact perm.nodup_iff.symm

include records

/-- Codepoints that are read back are alone in their buckets. -/
theorem alone_of_readsRecords (version : font.version = 2)
    (sorted : pairs.Pairwise fun pair next => pair.1 ≤ next.1)
    (reads : ReadsRecords (keyed.map Prod.snd) bytes) :
    ∀ index, (bin pairs index).length ≤ 1 := by
  obtain ⟨sound, complete⟩ := (readsRecords_iff generated version).mp reads
  have same : SameCodepts pairs := by
    refine ⟨sorted, (generated.codepoints_perm distinct).nodup_iff.mpr distinct, ?_, ?_⟩
    · intro pair member
      obtain ⟨before, glyph, behind, -, -, assigned⟩ := assigns_placed generated member
      obtain ⟨offset, inItems, -⟩ := complete pair.1 glyph.data assigned
      obtain ⟨position, inPositions, read⟩ := List.mem_map.mp inItems
      exact ⟨position, inPositions, by rw [read]⟩
    · intro position member
      obtain ⟨data, -, glyph, inGlyphs, here, -⟩ := sound _ (List.mem_map_of_mem member)
      rw [(generated.placed.map Prod.fst).mem_iff, map_fst_placedFrom]
      exact List.mem_flatMap.mpr ⟨glyph, inGlyphs, here⟩
  apply same.length_bin_le_one
  intro pair member
  have bound := offset_le records (generated.placed.mem_iff.mp member)
  have count := generated.length_keyed_le
  rw [List.length_map] at bound
  omega

/-- Where all codepoints are alone, the records decide. -/
theorem readsRecords_iff_stands (version : font.version = 2)
    (alone : ∀ index, (bin pairs index).length ≤ 1) :
    ReadsRecords (keyed.map Prod.snd) bytes ↔
      StandsShort (keyed.map Prod.snd) pairs.length bytes := by
  rw [readsRecords_iff generated version]
  simp only [mem_misread_iff alone]
  constructor
  · rintro ⟨sound, -⟩ before glyph behind split
    obtain ⟨entry, inKeyed, isGlyph⟩ := List.mem_map.mp
      (show glyph ∈ keyed.map Prod.snd by simp [split])
    obtain ⟨c, firstCodept, -⟩ := generated.bits entry inKeyed
    have here : c ∈ glyph.codepoints := isGlyph ▸ List.mem_of_head? firstCodept
    have placed : (c, 4 + (before.flatMap Glyph.data).length) ∈ pairs :=
      generated.placed.mem_iff.mpr (mem_placedFrom.mpr ⟨before, glyph, behind, split, here, rfl⟩)
    obtain ⟨data, read, assigned⟩ := sound _ ⟨_, placed, rfl⟩
    have own : Assigns (keyed.map Prod.snd) c glyph.data := ⟨glyph, by simp [split], here, rfl⟩
    rw [assigns_unique generated distinct own assigned]
    exact isPrefix_of_readGlyphData read
  · intro stands
    have reads {pair : Nat × Nat} {before behind : List Glyph} {glyph : Glyph}
        (split : keyed.map Prod.snd = before ++ glyph :: behind)
        (offset : pair.2 = 4 + (before.flatMap Glyph.data).length) :
        readGlyphData bytes (8 + 255 * 4 + 4 * pairs.length + pair.2 % 65536) = .ok glyph.data := by
      rw [offset]
      exact readGlyphData_of_isPrefix (records glyph (by simp [split]))
        (stands before glyph behind split)
    constructor
    · rintro item ⟨pair, member, rfl⟩
      obtain ⟨before, glyph, behind, split, offset, assigned⟩ := assigns_placed generated member
      exact ⟨glyph.data, reads split offset, assigned⟩
    · rintro c data ⟨glyph, member, here, rfl⟩
      obtain ⟨before, behind, split⟩ := List.append_of_mem member
      have placed : (c, 4 + (before.flatMap Glyph.data).length) ∈ pairs :=
        generated.placed.mem_iff.mpr (mem_placedFrom.mpr ⟨before, glyph, behind, split, here, rfl⟩)
      exact ⟨_, ⟨_, placed, rfl⟩, reads split rfl⟩

end Records

/-- Exactly when `font_read` undoes `build_tables` and `bitstring` in version 2. -/
theorem fontRead_version_two_iff (font : Font) (version : font.version = 2)
    (plain : font.rle4 = false) (sources : List (Nat × GIndex))
    (small : ∀ source ∈ sources, source.1 < 65536) (distinct : (sources.map Prod.fst).Nodup)
    (bytes : List UInt8) (run : font.bitstring sources = .ok bytes) :
    ∃ keyed pairs fontinfo, font.Generated sources bytes keyed pairs fontinfo ∧
      (ReadsRecords (keyed.map Prod.snd) bytes ↔
        (sources.map fun source => source.1 % 255).Nodup ∧
          StandsShort (keyed.map Prod.snd) sources.length bytes) := by
  obtain ⟨keyed, pairs, fontinfo, generated, sorted⟩ := bitstring_sorted small run
  refine ⟨keyed, pairs, fontinfo, generated, ?_⟩
  have records := generated.toKeyed.isRecord plain
  rw [alone_iff generated distinct, ← generated.length_eq]
  constructor
  · intro reads
    have alone := alone_of_readsRecords generated records distinct version sorted reads
    exact ⟨alone, (readsRecords_iff_stands generated records distinct version alone).mp reads⟩
  · rintro ⟨alone, stands⟩
    exact (readsRecords_iff_stands generated records distinct version alone).mpr stands

/-- A version 2 font with one glyph, a row of two pixels. -/
def rowFont : Font :=
  ⟨2, 14, false, (0, 0), fun _ _ => ⟨2, 1, 0, 0, 4, [true, true], rfl⟩⟩

def rowSources : List (Nat × GIndex) :=
  [(0x25AF, .face 0)]

def rowBytes : List UInt8 :=
  ((rowFont.bitstring rowSources).toOption).getD []

/-- A codepoint without width, whose record is nothing but zeros, like the bytes in front of it. -/
def blankSources : List (Nat × GIndex) :=
  [(0x200B, .zeroWidth)]

def blankBytes : List UInt8 :=
  ((rowFont.bitstring blankSources).toOption).getD []

theorem fontRead_version_two_iff_blank :
    ∃ keyed pairs fontinfo, rowFont.Generated blankSources blankBytes keyed pairs fontinfo ∧
      ReadsRecords (keyed.map Prod.snd) blankBytes := by
  obtain ⟨keyed, pairs, fontinfo, generated, readsIff⟩ := fontRead_version_two_iff rowFont rfl rfl
    blankSources (by decide) (by decide) blankBytes (eq_ok_of_isOk (by decide +kernel) [])
  refine ⟨keyed, pairs, fontinfo, generated, readsIff.mpr ⟨by decide, ?_⟩⟩
  have isBlank (gindex : GIndex) : gindex ∈ keyed.map Prod.fst ↔ gindex = .zeroWidth := by
    rw [generated.mem_keys]
    simp [blankSources]
  cases keyed with
  | nil => simpa using (isBlank .zeroWidth).mpr rfl
  | cons entry rest =>
      have blank := (isBlank entry.1).mp List.mem_cons_self
      have single : rest = [] := by
        refine List.eq_nil_iff_forall_not_mem.mpr fun other member => ?_
        have same := (isBlank other.1).mp (List.mem_cons_of_mem _ (List.mem_map_of_mem member))
        have keys := generated.keys_nodup
        rw [List.map_cons, List.nodup_cons] at keys
        exact keys.1 (List.mem_map.mpr ⟨other, member, same.trans blank.symm⟩)
      obtain ⟨c, -, bits⟩ := generated.bits entry List.mem_cons_self
      have value : rowFont.glyphBits c .zeroWidth = .ok [0, 0, 0, 0, 0] := rfl
      rw [blank, value] at bits
      have dropped := generated.drop_glyphs rfl 2
      rw [single, List.map_singleton, generated.length_eq] at dropped
      intro before glyph behind split
      rw [single, List.map_singleton] at split
      obtain ⟨rfl, rfl, rfl⟩ : before = [] ∧ entry.2 = glyph ∧ behind = [] := by
        cases before with
        | nil => simpa using split
        | cons first before => simp at split
      change entry.2.data <+: blankBytes.drop (8 + 255 * 4 + 6 * blankSources.length + 2)
      rw [dropped, glyphTableOf, List.flatMap_singleton, ← Except.ok.inj bits]
      exact ⟨[0, 0], rfl⟩

/-- The record is read two bytes too early. -/
theorem fontRead_version_two_row : rowFont.bitstring rowSources = .ok rowBytes ∧
    ∀ keyed pairs fontinfo, rowFont.Generated rowSources rowBytes keyed pairs fontinfo →
      ¬ReadsRecords (keyed.map Prod.snd) rowBytes := by
  refine ⟨eq_ok_of_isOk (by decide +kernel) [], ?_⟩
  intro keyed pairs fontinfo generated reads
  have alone := (alone_iff generated (by decide)).mp (by decide)
  have stands := (readsRecords_iff_stands generated (generated.toKeyed.isRecord rfl) (by decide) rfl
    alone).mp reads
  have isFace (gindex : GIndex) : gindex ∈ keyed.map Prod.fst ↔ gindex = .face 0 := by
    rw [generated.mem_keys]
    simp [rowSources]
  cases keyed with
  | nil => simpa using (isFace (.face 0)).mpr rfl
  | cons entry rest =>
      have face := (isFace entry.1).mp List.mem_cons_self
      obtain ⟨c, -, bits⟩ := generated.bits entry List.mem_cons_self
      have anyCodept : rowFont.glyphBits c (.face 0) = rowFont.glyphBits 0 (.face 0) := rfl
      have value : rowFont.glyphBits 0 (.face 0) = .ok [2, 1, 0, 0, 4, 3, 0, 0, 0] := by
        decide +kernel
      rw [face, anyCodept, value] at bits
      have early := stands [] entry.2 (rest.map Prod.snd) rfl
      have dropped := generated.drop_glyphs rfl 2
      rw [generated.length_eq] at dropped early
      change entry.2.data <+: rowBytes.drop (8 + 255 * 4 + 6 * rowSources.length + 2) at early
      rw [← Except.ok.inj bits, dropped] at early
      change _ <+: (0 : UInt8) :: _ at early
      exact absurd (List.cons_prefix_cons.mp early).1 (by decide)

end FontGen

end Elbbep
