import Elbbep.HashChains
import Elbbep.PfoMerge

/-!
# The layout of a font file

Both writers produce the same layout from a list of codepoints with their offsets, and
`font_read` takes a file of this layout apart again: it visits the items bucket by bucket.
-/

namespace Elbbep

namespace PfoMerge

open PythonStruct HashChains

/-- The bucket of a codepoint. -/
def binNo (pair : Nat × Nat) : Nat :=
  pair.1 % hashtableDirectorySize

theorem binNo_lt (pair : Nat × Nat) : binNo pair < hashtableDirectorySize :=
  Nat.mod_lt _ (by decide)

namespace ChainItem

variable (chainItem : ChainItem)

/-- What fits into the two fields of an item. -/
structure Fits (pair : Nat × Nat) : Prop where
  codept : pair.1 < 65536
  offset : pair.2 < 256 ^ (chainItem.size - 2)

instance (pair : Nat × Nat) : Decidable (chainItem.Fits pair) :=
  decidable_of_iff (pair.1 < 65536 ∧ pair.2 < 256 ^ (chainItem.size - 2))
    ⟨fun h => ⟨h.1, h.2⟩, fun h => ⟨h.codept, h.offset⟩⟩

/-- The bytes of an item. -/
def encode (pair : Nat × Nat) : List UInt8 :=
  match chainItem with
  | hh => encodeH pair.1 ++ encodeH pair.2
  | hl => encodeH pair.1 ++ encodeL pair.2

theorem length_encode (pair : Nat × Nat) : (chainItem.encode pair).length = chainItem.size := by
  cases chainItem <;> rfl

theorem pack_eq (codept offset : Nat) :
    chainItem.pack codept offset =
      if chainItem.Fits (codept, offset) then .ok (chainItem.encode (codept, offset))
      else .error .structError := by
  have fits : chainItem.Fits (codept, offset) ↔
      codept < 65536 ∧ offset < 256 ^ (chainItem.size - 2) :=
    ⟨fun h => ⟨h.codept, h.offset⟩, fun h => ⟨h.1, h.2⟩⟩
  rw [pack, packH_natCast]
  by_cases small : codept < 65536
  · cases chainItem with
    | hh =>
        rw [packH_natCast]
        by_cases near : offset < 65536 <;> simp [small, near, fits, size, encode] <;> rfl
    | hl =>
        rw [packL_natCast]
        by_cases near : offset < 4294967296 <;> simp [small, near, fits, size, encode] <;> rfl
  · simp [small, fits]
    rfl

variable {chainItem}

theorem unpack_encode {pair : Nat × Nat} (fits : chainItem.Fits pair) :
    chainItem.unpack (chainItem.encode pair) = .ok pair := by
  have first := u16_encodeH fits.codept
  cases chainItem with
  | hh =>
      have second := u16_encodeH (show pair.2 < 65536 from fits.offset)
      simp [encode, encodeH, unpack, first, second]
  | hl =>
      have second := u32_encodeL (show pair.2 < 4294967296 from fits.offset)
      simp [encode, encodeH, encodeL, unpack, first, second]

end ChainItem

variable (chainItem : ChainItem) (pairs : List (Nat × Nat))

/-- The items of one bucket. -/
def bin (index : Nat) : List (Nat × Nat) :=
  bucket binNo pairs index

def binOffset (index : Nat) : Nat :=
  chainOffset binNo chainItem.encode pairs index

def directoryItem (index : Nat) : List UInt8 :=
  [UInt8.ofNat index, UInt8.ofNat (bin pairs index).length] ++
    encodeH (binOffset chainItem pairs index)

/-- The contents of a font file. -/
def pfoFile (header glyphTable : List UInt8) : List UInt8 :=
  header ++ ((List.range hashtableDirectorySize).flatMap (directoryItem chainItem pairs) ++
    (chains binNo chainItem.encode hashtableDirectorySize pairs ++ glyphTable))

/-- Nothing is too large for its field. -/
structure TablesFit : Prop where
  item : ∀ pair ∈ pairs, chainItem.Fits pair
  count : ∀ index < hashtableDirectorySize, (bin pairs index).length < 256
  offset : ∀ index < hashtableDirectorySize, binOffset chainItem pairs index < 65536

variable {chainItem pairs}

theorem length_directoryItem (index : Nat) :
    (directoryItem chainItem pairs index).length = hashtableDirectoryItemSize := rfl

theorem length_directory :
    ((List.range hashtableDirectorySize).flatMap (directoryItem chainItem pairs)).length =
      hashtableDirectorySize * hashtableDirectoryItemSize := by
  rw [length_flatMap_uniform (fun index _ => length_directoryItem index), List.length_range,
    Nat.mul_comm]

theorem length_chains :
    (chains binNo chainItem.encode hashtableDirectorySize pairs).length =
      pairs.length * chainItem.size := by
  rw [chains_eq_flatMap, length_flatMap_uniform (fun pair _ => chainItem.length_encode pair),
    (inBucketOrder_perm fun pair _ => binNo_lt pair).length_eq, Nat.mul_comm]

section Read

variable {headerBytes glyphTable : List UInt8} {header : Header}
  (sizeEq : header.headerSize = headerBytes.length)

include sizeEq

theorem drop_tablesBase :
    (pfoFile chainItem pairs headerBytes glyphTable).drop header.tablesBase =
      chains binNo chainItem.encode hashtableDirectorySize pairs ++ glyphTable := by
  rw [pfoFile, Header.tablesBase, sizeEq, ← List.drop_drop, List.drop_left, ← length_directory,
    List.drop_left]

theorem readDirectoryItem_pfoFile (fits : TablesFit chainItem pairs) {index : Nat}
    (inRange : index < hashtableDirectorySize) :
    header.readDirectoryItem (pfoFile chainItem pairs headerBytes glyphTable) index =
      .ok ((bin pairs index).length, binOffset chainItem pairs index) := by
  have here : (List.range hashtableDirectorySize)[index]? = some index := by simp [inRange]
  have found : slice (pfoFile chainItem pairs headerBytes glyphTable)
      (header.headerSize + index * hashtableDirectoryItemSize)
      (header.headerSize + index * hashtableDirectoryItemSize + hashtableDirectoryItemSize) =
        directoryItem chainItem pairs index := by
    rw [slice_eq_take_drop, pfoFile, sizeEq, ← List.drop_drop, List.drop_left]
    exact take_drop_flatMap (fun other _ => length_directoryItem other) here _
  have count := toNat_ofNat_byte (fits.count index inRange)
  have offset := u16_encodeH (fits.offset index inRange)
  rw [Header.readDirectoryItem, found]
  simp [directoryItem, encodeH, count, offset]

variable (itemEq : header.chainItem = chainItem)

include itemEq

theorem readItem_pfoFile (fits : TablesFit chainItem pairs) {index position : Nat}
    (inRange : index < hashtableDirectorySize) {pair : Nat × Nat}
    (here : (bin pairs index)[position]? = some pair) :
    header.readItem (pfoFile chainItem pairs headerBytes glyphTable)
      (binOffset chainItem pairs index) position = .ok pair := by
  have member : pair ∈ pairs := (mem_bucket.mp (List.mem_of_getElem? here)).1
  rw [Header.readItem, itemEq, slice_eq_take_drop, Nat.add_assoc, ← List.drop_drop,
    drop_tablesBase sizeEq, binOffset,
    take_drop_chains (fun other _ => chainItem.length_encode other) inRange here]
  exact ChainItem.unpack_encode (fits.item pair member)

theorem readChain_pfoFile (fits : TablesFit chainItem pairs) {index : Nat}
    (inRange : index < hashtableDirectorySize) (glyphs : List (Nat × Glyph)) :
    header.readChain (pfoFile chainItem pairs headerBytes glyphTable) glyphs index =
      (bin pairs index).foldlM
        (readChainItem (pfoFile chainItem pairs headerBytes glyphTable) header.glyphsBase)
        glyphs := by
  rw [Header.readChain, readDirectoryItem_pfoFile sizeEq fits inRange]
  exact foldlM_range (fun position pair here =>
    readItem_pfoFile sizeEq itemEq fits inRange here) _ _

/-- The items of a file of this layout are visited bucket by bucket. -/
theorem foldlM_readChain_pfoFile (fits : TablesFit chainItem pairs) :
    (List.range hashtableDirectorySize).foldlM
        (header.readChain (pfoFile chainItem pairs headerBytes glyphTable)) [] =
      (inBucketOrder binNo hashtableDirectorySize pairs).foldlM
        (readChainItem (pfoFile chainItem pairs headerBytes glyphTable) header.glyphsBase) [] := by
  apply foldlM_flatMap
  intro index member glyphs
  exact readChain_pfoFile sizeEq itemEq fits (List.mem_range.mp member) glyphs

theorem glyphsBase_pfoFile (countEq : header.codeptCt = pairs.length) (offset : Nat) :
    (pfoFile chainItem pairs headerBytes glyphTable).drop (header.glyphsBase + offset) =
      glyphTable.drop offset := by
  rw [Header.glyphsBase, itemEq, countEq, ← List.drop_drop, ← List.drop_drop,
    drop_tablesBase sizeEq, ← length_chains, List.drop_left]

end Read

/-! ## The glyphs that are found -/

/-- The codepoints with an offset. -/
def codeptsAt (items : List (Nat × Nat)) (offset : Nat) : List Nat :=
  (items.filter fun item => item.2 == offset).map Prod.fst

theorem mem_codeptsAt {items : List (Nat × Nat)} {offset c : Nat} :
    c ∈ codeptsAt items offset ↔ (c, offset) ∈ items := by
  simp [codeptsAt]

theorem codeptsAt_concat (items : List (Nat × Nat)) (item : Nat × Nat) (offset : Nat) :
    codeptsAt (items ++ [item]) offset =
      codeptsAt items offset ++ if item.2 = offset then [item.1] else [] := by
  by_cases same : item.2 = offset <;> simp [codeptsAt, List.filter_append, same]

/-- The glyphs of these items, by their offsets. -/
structure GlyphsOf (dataAt : Nat → List UInt8) (items : List (Nat × Nat))
    (glyphs : List (Nat × Glyph)) : Prop where
  keys_nodup : (glyphs.map Prod.fst).Nodup
  mem_iff : ∀ offset glyph, (offset, glyph) ∈ glyphs ↔
    glyph = ⟨codeptsAt items offset, dataAt offset⟩ ∧ offset ∈ items.map Prod.snd

namespace GlyphsOf

variable {dataAt : Nat → List UInt8} {items : List (Nat × Nat)} {glyphs : List (Nat × Glyph)}

theorem nil : GlyphsOf dataAt [] [] := ⟨List.nodup_nil, by simp⟩

theorem mem_keys (done : GlyphsOf dataAt items glyphs) (offset : Nat) :
    offset ∈ glyphs.map Prod.fst ↔ offset ∈ items.map Prod.snd := by
  constructor
  · intro member
    obtain ⟨⟨key, glyph⟩, inGlyphs, rfl⟩ := List.mem_map.mp member
    exact ((done.mem_iff key glyph).mp inGlyphs).2
  · intro member
    exact List.mem_map_of_mem ((done.mem_iff offset _).mpr ⟨rfl, member⟩)

theorem lookup_isNone_iff (done : GlyphsOf dataAt items glyphs) (offset : Nat) :
    (glyphs.lookup offset).isNone = true ↔ offset ∉ items.map Prod.snd := by
  rw [← done.mem_keys, Option.isNone_iff_eq_none, List.lookup_eq_none_iff, List.mem_map]
  constructor
  · rintro none ⟨entry, member, rfl⟩
    simpa using none entry member
  · intro absent entry member
    rw [bne_iff_ne]
    rintro rfl
    exact absent ⟨entry, member, rfl⟩

/-- An item with a new offset. -/
theorem concat_fresh (done : GlyphsOf dataAt items glyphs) {item : Nat × Nat}
    (fresh : item.2 ∉ items.map Prod.snd) :
    GlyphsOf dataAt (items ++ [item]) (glyphs ++ [(item.2, ⟨[item.1], dataAt item.2⟩)]) := by
  have none : codeptsAt items item.2 = [] := by
    rw [List.eq_nil_iff_forall_not_mem]
    intro c member
    exact fresh (List.mem_map.mpr ⟨_, mem_codeptsAt.mp member, rfl⟩)
  constructor
  · rw [List.map_append, List.nodup_append_comm]
    exact List.nodup_cons.mpr ⟨fun member => fresh ((done.mem_keys _).mp member), done.keys_nodup⟩
  · intro offset glyph
    rw [List.mem_append, done.mem_iff, List.mem_singleton, codeptsAt_concat, List.map_append,
      List.mem_append, List.map_singleton, List.mem_singleton, Prod.mk.injEq]
    by_cases same : item.2 = offset
    · subst same
      simp [fresh, none, and_comm]
    · simp [same, Ne.symm same]

/-- An item with an offset that is known. -/
theorem concat_known (done : GlyphsOf dataAt items glyphs) {item : Nat × Nat}
    (known : item.2 ∈ items.map Prod.snd) :
    GlyphsOf dataAt (items ++ [item]) (glyphs.map fun entry =>
      if entry.1 = item.2 then (entry.1, ⟨entry.2.codepoints ++ [item.1], entry.2.data⟩)
      else entry) := by
  constructor
  · rw [List.map_map]
    have keys : (Prod.fst ∘ fun entry : Nat × Glyph =>
        if entry.1 = item.2 then (entry.1, (⟨entry.2.codepoints ++ [item.1], entry.2.data⟩ : Glyph))
        else entry) = Prod.fst := by
      funext entry
      simp only [Function.comp_apply]
      split <;> rfl
    rw [keys]
    exact done.keys_nodup
  · intro offset glyph
    rw [codeptsAt_concat, List.map_append, List.mem_append, List.map_singleton,
      List.mem_singleton, List.mem_map]
    by_cases same : item.2 = offset
    · subst same
      constructor
      · rintro ⟨⟨key, old⟩, member, eq⟩
        obtain ⟨rfl, -⟩ := (done.mem_iff key old).mp member
        split at eq
        next keyEq => simp_all
        next keyNe => simp_all
      · rintro ⟨rfl, -⟩
        exact ⟨_, (done.mem_iff item.2 _).mpr ⟨rfl, known⟩, by simp⟩
    · constructor
      · rintro ⟨⟨key, old⟩, member, eq⟩
        obtain ⟨rfl, inItems⟩ := (done.mem_iff key old).mp member
        split at eq
        next keyEq => simp_all
        next keyNe =>
          cases eq
          simp [same, inItems]
      · rintro ⟨rfl, inItems | rfl⟩
        · refine ⟨_, (done.mem_iff offset _).mpr ⟨rfl, inItems⟩, ?_⟩
          simp [same, Ne.symm same]
        · exact absurd rfl same

theorem readChainItem_ok (done : GlyphsOf dataAt items glyphs) {pfo : List UInt8}
    {glyphsBase : Nat} {item : Nat × Nat}
    (reads : readGlyphData pfo (glyphsBase + item.2) = .ok (dataAt item.2)) :
    ∃ glyphs', readChainItem pfo glyphsBase glyphs item = .ok glyphs' ∧
      GlyphsOf dataAt (items ++ [item]) glyphs' := by
  unfold readChainItem
  by_cases fresh : (glyphs.lookup item.2).isNone = true
  · rw [if_pos fresh, reads]
    exact ⟨_, rfl, done.concat_fresh ((done.lookup_isNone_iff _).mp fresh)⟩
  · rw [if_neg fresh]
    exact ⟨_, rfl, done.concat_known (by simpa [done.lookup_isNone_iff] using fresh)⟩

/-- All items are read when the data at their offsets is. -/
theorem foldlM_readChainItem {pfo : List UInt8} {glyphsBase : Nat} {later : List (Nat × Nat)}
    (reads : ∀ item ∈ later, readGlyphData pfo (glyphsBase + item.2) = .ok (dataAt item.2))
    (done : GlyphsOf dataAt items glyphs) :
    ∃ glyphs', later.foldlM (readChainItem pfo glyphsBase) glyphs = .ok glyphs' ∧
      GlyphsOf dataAt (items ++ later) glyphs' := by
  induction later generalizing items glyphs with
  | nil => exact ⟨glyphs, rfl, by simpa using done⟩
  | cons item later ih =>
      obtain ⟨next, step, doneNext⟩ := done.readChainItem_ok (reads item (by simp))
      obtain ⟨glyphs', run, doneAll⟩ :=
        ih (fun other member => reads other (by simp [member])) doneNext
      refine ⟨glyphs', ?_, by simpa using doneAll⟩
      rw [List.foldlM_cons, step]
      exact run

end GlyphsOf

theorem readGlyphData_drop (pfo : List UInt8) (dataStart : Nat) :
    readGlyphData pfo dataStart = readGlyphData (pfo.drop dataStart) 0 := by
  have start := slice_eq_take_drop (pfo.drop dataStart) 0 2
  rw [Nat.zero_add, List.drop_zero] at start
  rw [readGlyphData, readGlyphData, slice_eq_take_drop, start]
  split
  · rw [slice_eq_take_drop, slice_eq_take_drop, List.drop_zero]
  · rfl

/-- A file of this layout is read to the glyphs at its offsets. -/
theorem fontRead_pfoFile {headerBytes glyphTable : List UInt8} {header : Header}
    (headerEq : readHeader (pfoFile chainItem pairs headerBytes glyphTable) = .ok header)
    (sizeEq : header.headerSize = headerBytes.length) (itemEq : header.chainItem = chainItem)
    (countEq : header.codeptCt = pairs.length) (fits : TablesFit chainItem pairs)
    {dataAt : Nat → List UInt8}
    (reads : ∀ pair ∈ pairs, readGlyphData (glyphTable.drop pair.2) 0 = .ok (dataAt pair.2)) :
    ∃ glyphs, fontRead (pfoFile chainItem pairs headerBytes glyphTable) =
        .ok ⟨header.maxHeight, header.wildcard, header.compressed, glyphs⟩ ∧
      GlyphsOf dataAt (inBucketOrder binNo hashtableDirectorySize pairs) glyphs := by
  have perm : (inBucketOrder binNo hashtableDirectorySize pairs).Perm pairs :=
    inBucketOrder_perm fun pair _ => binNo_lt pair
  have readsHere : ∀ pair ∈ inBucketOrder binNo hashtableDirectorySize pairs,
      readGlyphData (pfoFile chainItem pairs headerBytes glyphTable)
        (header.glyphsBase + pair.2) = .ok (dataAt pair.2) := by
    intro pair member
    rw [readGlyphData_drop, glyphsBase_pfoFile sizeEq itemEq countEq]
    exact reads pair (perm.mem_iff.mp member)
  obtain ⟨glyphs, run, done⟩ := GlyphsOf.nil.foldlM_readChainItem readsHere
  refine ⟨glyphs, ?_, done⟩
  rw [fontRead, headerEq]
  change ((List.range hashtableDirectorySize).foldlM
    (header.readChain (pfoFile chainItem pairs headerBytes glyphTable)) []).bind _ = _
  rw [foldlM_readChain_pfoFile sizeEq itemEq fits, run]
  rfl

end PfoMerge

end Elbbep
