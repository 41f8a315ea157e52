import Elbbep.FontGenLayout
import Elbbep.FontRoundTrip

/-!
# Chains that are read with the wrong item size

`fontgen.py` writes the items of a version 2 file with four bytes for the offset, while
`font_read` expects two.  The first item of each bucket is then read with the lower half of
its offset, and the others are read across the borders of the items.
-/

namespace Elbbep

namespace PfoMerge

open PythonStruct HashChains

/-! ## Items as words -/

/-- The three words of an item with a long offset. -/
def itemWords (pair : Nat × Nat) : List Nat :=
  [pair.1, pair.2 % 65536, pair.2 / 65536]

theorem encodeL_eq (value : Nat) :
    encodeL value = encodeH (value % 65536) ++ encodeH (value / 65536) := by
  have byte (first second : Nat) (same : first % 256 = second % 256) :
      UInt8.ofNat first = UInt8.ofNat second := by
    apply UInt8.toNat_inj.mp
    rw [UInt8.toNat_ofNat', UInt8.toNat_ofNat']
    exact same
  simp only [encodeL, encodeH, List.cons_append, List.nil_append, List.cons.injEq, and_true]
  refine ⟨byte _ _ ?_, byte _ _ ?_, trivial, byte _ _ ?_⟩ <;> omega

theorem encode_hl (pair : Nat × Nat) :
    ChainItem.hl.encode pair = (itemWords pair).flatMap encodeH := by
  simp [ChainItem.encode, itemWords, encodeL_eq]

variable {pairs : List (Nat × Nat)}

/-- The words of a bucket. -/
def binWords (pairs : List (Nat × Nat)) (index : Nat) : List Nat :=
  (bin pairs index).flatMap itemWords

theorem length_binWords (pairs : List (Nat × Nat)) (index : Nat) :
    (binWords pairs index).length = 3 * (bin pairs index).length :=
  length_flatMap_uniform fun _ _ => rfl

theorem binWords_lt (fits : TablesFit .hl pairs) (index position : Nat) :
    (binWords pairs index).getD position 0 < 65536 := by
  by_cases inside : position < (binWords pairs index).length
  · rw [List.getD_eq_getElem _ _ inside]
    obtain ⟨pair, inBin, isWord⟩ := List.mem_flatMap.mp (List.getElem_mem inside)
    obtain ⟨codept, offset⟩ := fits.item pair (mem_bucket.mp inBin).1
    simp only [itemWords, List.mem_cons, List.not_mem_nil, or_false] at isWord
    change pair.2 < 4294967296 at offset
    omega
  · rw [List.getD_eq_default _ _ (by omega)]
    decide

/-- Two words of a text of words. -/
theorem take_drop_words {words : List Nat} {position : Nat} (inside : position + 1 < words.length)
    (more : List UInt8) :
    ((words.flatMap encodeH ++ more).drop (position * 2)).take 4 =
      encodeH (words.getD position 0) ++ encodeH (words.getD (position + 1) 0) := by
  have uniform : ∀ word ∈ words, (encodeH word).length = 2 := fun _ _ => rfl
  have short : position * 2 ≤ (words.flatMap encodeH).length := by
    rw [length_flatMap_uniform uniform]
    omega
  have dropEq : words.drop position =
      words.getD position 0 :: words.getD (position + 1) 0 :: words.drop (position + 2) := by
    rw [List.drop_eq_getElem_cons (by omega : position < words.length),
      List.drop_eq_getElem_cons inside,
      List.getD_eq_getElem _ _ (by omega : position < words.length),
      List.getD_eq_getElem _ _ inside]
  rw [List.drop_append_of_le_length short, drop_flatMap_uniform uniform, dropEq]
  rfl

/-- What is found at a position of a bucket if an item is two words. -/
def misreadAt (pairs : List (Nat × Nat)) (position : Nat × Nat) : Nat × Nat :=
  ((binWords pairs position.1).getD (2 * position.2) 0,
    (binWords pairs position.1).getD (2 * position.2 + 1) 0)

section Read

variable {headerBytes glyphTable : List UInt8} {header : Header}
  (sizeEq : header.headerSize = headerBytes.length) (itemEq : header.chainItem = .hh)

include sizeEq itemEq

theorem readItem_misread (fits : TablesFit .hl pairs) {index position : Nat}
    (inRange : index < hashtableDirectorySize) (inside : position < (bin pairs index).length) :
    header.readItem (pfoFile .hl pairs headerBytes glyphTable) (binOffset .hl pairs index)
      position = .ok (misreadAt pairs (index, position)) := by
  have wordCount := length_binWords pairs index
  obtain ⟨more, atChain⟩ := exists_drop_chains binNo ChainItem.hl.encode inRange pairs glyphTable
  have chainEq : chain binNo ChainItem.hl.encode pairs index =
      (binWords pairs index).flatMap encodeH := by
    rw [chain, binWords, List.flatMap_assoc]
    exact congrArg (List.flatMap · _) (funext encode_hl)
  have inWords : 2 * position + 1 < (binWords pairs index).length := by omega
  have address : position * ChainItem.hh.size = 2 * position * 2 := by
    change position * 4 = _
    omega
  rw [Header.readItem, itemEq, slice_eq_take_drop, Nat.add_assoc, ← List.drop_drop,
    drop_tablesBase sizeEq, ← List.drop_drop, binOffset, atChain, chainEq, address]
  change ChainItem.hh.unpack (List.take 4 _) = _
  rw [take_drop_words inWords more]
  have first := u16_encodeH (binWords_lt fits index (2 * position))
  have second := u16_encodeH (binWords_lt fits index (2 * position + 1))
  change Except.ok (u16 _ _, u16 _ _) = _
  rw [first, second]
  rfl

/-- All positions of items, bucket by bucket. -/
def positions (pairs : List (Nat × Nat)) : List (Nat × Nat) :=
  (List.range hashtableDirectorySize).flatMap fun index =>
    (List.range (bin pairs index).length).map fun position => (index, position)

theorem readChain_misread (fits : TablesFit .hl pairs) {index : Nat}
    (inRange : index < hashtableDirectorySize) (glyphs : List (Nat × Glyph)) :
    header.readChain (pfoFile .hl pairs headerBytes glyphTable) glyphs index =
      ((List.range (bin pairs index).length).map fun position =>
          misreadAt pairs (index, position)).foldlM
        (readChainItem (pfoFile .hl pairs headerBytes glyphTable) header.glyphsBase) glyphs := by
  have reads : ∀ position item, ((List.range (bin pairs index).length).map fun position =>
        misreadAt pairs (index, position))[position]? = some item →
      header.readItem (pfoFile .hl pairs headerBytes glyphTable) (binOffset .hl pairs index)
        position = .ok item := by
    intro position item here
    obtain ⟨inside, itemIs⟩ := List.getElem?_eq_some_iff.mp here
    rw [List.length_map, List.length_range] at inside
    rw [List.getElem_map, List.getElem_range] at itemIs
    rw [← itemIs]
    exact readItem_misread sizeEq itemEq fits inRange inside
  have loop := foldlM_range reads
    (readChainItem (pfoFile .hl pairs headerBytes glyphTable) header.glyphsBase) glyphs
  rw [List.length_map, List.length_range] at loop
  rw [Header.readChain, readDirectoryItem_pfoFile sizeEq fits inRange]
  exact loop

/-- The items of the file as they are read. -/
theorem foldlM_readChain_misread (fits : TablesFit .hl pairs) :
    (List.range hashtableDirectorySize).foldlM
        (header.readChain (pfoFile .hl pairs headerBytes glyphTable)) [] =
      ((positions pairs).map (misreadAt pairs)).foldlM
        (readChainItem (pfoFile .hl pairs headerBytes glyphTable) header.glyphsBase) [] := by
  rw [positions, List.map_flatMap]
  apply foldlM_flatMap
  intro index member glyphs
  rw [readChain_misread sizeEq itemEq fits (List.mem_range.mp member), List.map_map]
  rfl

end Read

/-! ## What is found when nothing fails -/

/-- The data of all items has been read. -/
theorem GlyphsOf.reads_of_foldlM {pfo : List UInt8} {glyphsBase : Nat} {dataAt : Nat → List UInt8}
    (dataEq : ∀ offset data, readGlyphData pfo (glyphsBase + offset) = .ok data →
      dataAt offset = data)
    {later : List (Nat × Nat)} : ∀ {items : List (Nat × Nat)} {glyphs found : List (Nat × Glyph)},
      GlyphsOf dataAt items glyphs →
      (∀ item ∈ items, readGlyphData pfo (glyphsBase + item.2) = .ok (dataAt item.2)) →
      later.foldlM (readChainItem pfo glyphsBase) glyphs = .ok found →
      ∀ item ∈ later, readGlyphData pfo (glyphsBase + item.2) = .ok (dataAt item.2) := by
  induction later with
  | nil => simp
  | cons first later ih =>
      intro items glyphs found done reads run
      rw [List.foldlM_cons] at run
      obtain ⟨next, step, run⟩ := bind_ok run
      have readsFirst : readGlyphData pfo (glyphsBase + first.2) = .ok (dataAt first.2) := by
        by_cases fresh : (glyphs.lookup first.2).isNone = true
        · rw [readChainItem, if_pos fresh] at step
          obtain ⟨data, dataRead, -⟩ := bind_ok step
          rw [dataEq _ _ dataRead]
          exact dataRead
        · have known : first.2 ∈ items.map Prod.snd := by
            by_contra absent
            exact fresh ((done.lookup_isNone_iff _).mpr absent)
          obtain ⟨item, inItems, same⟩ := List.mem_map.mp known
          rw [← same]
          exact reads item inItems
      obtain ⟨next', step', doneNext⟩ := done.readChainItem_ok readsFirst
      obtain rfl := Except.ok.inj (step.symm.trans step')
      have readsLater := ih doneNext (by
        intro item member
        rcases List.mem_append.mp member with inItems | isFirst
        · exact reads item inItems
        · rw [List.mem_singleton.mp isFirst]
          exact readsFirst) run
      intro item member
      rcases List.mem_cons.mp member with rfl | inLater
      · exact readsFirst
      · exact readsLater item inLater

/-- A codepoint with a record. -/
def Assigns (glyphs : List Glyph) (c : Nat) (data : List UInt8) : Prop :=
  ∃ glyph ∈ glyphs, c ∈ glyph.codepoints ∧ glyph.data = data

theorem GlyphsOf.assigns_iff {dataAt : Nat → List UInt8} {items : List (Nat × Nat)}
    {found : List (Nat × Glyph)} (done : GlyphsOf dataAt items found) (c : Nat)
    (data : List UInt8) : Assigns (found.map Prod.snd) c data ↔
      ∃ offset, (c, offset) ∈ items ∧ dataAt offset = data := by
  constructor
  · rintro ⟨glyph, member, here, dataEq⟩
    obtain ⟨offset, inItems, rfl⟩ := done.mem_values member here
    exact ⟨offset, inItems, dataEq⟩
  · rintro ⟨offset, inItems, dataEq⟩
    exact ⟨_, done.value_mem inItems, mem_codeptsAt.mpr inItems, dataEq⟩

/-- The data at an offset, if it can be read. -/
def dataOr (pfo : List UInt8) (glyphsBase offset : Nat) : List UInt8 :=
  ((readGlyphData pfo (glyphsBase + offset)).toOption).getD []

theorem dataOr_eq {pfo : List UInt8} {glyphsBase offset : Nat} {data : List UInt8}
    (read : readGlyphData pfo (glyphsBase + offset) = .ok data) :
    dataOr pfo glyphsBase offset = data := by
  rw [dataOr, read]
  rfl

section Assignment

variable {pfo : List UInt8} {header : Header} (headerEq : readHeader pfo = .ok header)
  {items : List (Nat × Nat)}
  (loop : (List.range hashtableDirectorySize).foldlM (header.readChain pfo) [] =
    items.foldlM (readChainItem pfo header.glyphsBase) [])

include headerEq loop

theorem fontRead_eq_bind : fontRead pfo =
    (items.foldlM (readChainItem pfo header.glyphsBase) []).bind fun glyphs =>
      .ok ⟨header.maxHeight, header.wildcard, header.compressed, glyphs⟩ := by
  rw [fontRead, headerEq, ← loop]
  rfl

/-- A file that is read has data at the offsets of all its items. -/
theorem fontRead_glyphsOf {font : Font} (read : fontRead pfo = .ok font) :
    (∀ item ∈ items, readGlyphData pfo (header.glyphsBase + item.2) =
      .ok (dataOr pfo header.glyphsBase item.2)) ∧
    GlyphsOf (dataOr pfo header.glyphsBase) items font.glyphs := by
  rw [fontRead_eq_bind headerEq loop] at read
  obtain ⟨glyphs, run, fontEq⟩ := bind_ok read
  obtain rfl := Except.ok.inj fontEq
  have reads := GlyphsOf.nil.reads_of_foldlM (fun _ _ => dataOr_eq) (by simp) run
  obtain ⟨glyphs', run', done⟩ := GlyphsOf.nil.foldlM_readChainItem reads
  obtain rfl := Except.ok.inj (run.symm.trans run')
  exact ⟨reads, by simpa using done⟩

/-- A file is read to an assignment if each item that is read belongs to it, and nothing of
it is missing. -/
theorem fontRead_assigns_iff (assigned : Nat → List UInt8 → Prop) :
    (∃ font, fontRead pfo = .ok font ∧
      ∀ c data, Assigns (font.glyphs.map Prod.snd) c data ↔ assigned c data) ↔
    (∀ item ∈ items, ∃ data, readGlyphData pfo (header.glyphsBase + item.2) = .ok data ∧
      assigned item.1 data) ∧
    ∀ c data, assigned c data → ∃ offset, (c, offset) ∈ items ∧
      readGlyphData pfo (header.glyphsBase + offset) = .ok data := by
  constructor
  · rintro ⟨font, read, same⟩
    obtain ⟨reads, done⟩ := fontRead_glyphsOf headerEq loop read
    constructor
    · intro item member
      refine ⟨_, reads item member, (same _ _).mp ?_⟩
      exact (done.assigns_iff _ _).mpr ⟨item.2, member, rfl⟩
    · intro c data isAssigned
      obtain ⟨offset, inItems, rfl⟩ := (done.assigns_iff c data).mp ((same c data).mpr isAssigned)
      exact ⟨offset, inItems, reads _ inItems⟩
  · rintro ⟨sound, complete⟩
    have reads : ∀ item ∈ items, readGlyphData pfo (header.glyphsBase + item.2) =
        .ok (dataOr pfo header.glyphsBase item.2) := by
      intro item member
      obtain ⟨data, read, -⟩ := sound item member
      rw [dataOr_eq read]
      exact read
    obtain ⟨glyphs, run, done⟩ := GlyphsOf.nil.foldlM_readChainItem reads
    rw [List.nil_append] at done
    refine ⟨⟨header.maxHeight, header.wildcard, header.compressed, glyphs⟩, ?_, ?_⟩
    · rw [fontRead_eq_bind headerEq loop, run]
      rfl
    · intro c data
      rw [done.assigns_iff]
      constructor
      · rintro ⟨offset, inItems, rfl⟩
        obtain ⟨data, read, isAssigned⟩ := sound _ inItems
        rw [dataOr_eq read]
        exact isAssigned
      · intro isAssigned
        obtain ⟨offset, inItems, read⟩ := complete c data isAssigned
        exact ⟨offset, inItems, dataOr_eq read⟩

end Assignment

end PfoMerge

end Elbbep
