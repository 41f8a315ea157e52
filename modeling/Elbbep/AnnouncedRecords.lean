import Elbbep.CompressedFonts

/-!
# Announced records

`font_read` takes as much of a record as its first two bytes announce.  So the glyphs of a font
that is read are those at the offsets of its chains, as far as they are announced, and a glyph of
`fontgen.py` is taken as a whole unless its stream is too long.
-/

namespace Elbbep

open PythonStruct HashChains

namespace PfoMerge

/-- The bytes that the first two bytes of a record announce: a header, and a bitmap of that width
and height. -/
def announced (data : List UInt8) : List UInt8 :=
  data.take (5 + bitmapDataSz (data.getD 0 0).toNat (data.getD 1 0).toNat)

/-- What is read of a record is announced. -/
theorem readGlyphData_announced {pfo : List UInt8} {dataStart : Nat} {data : List UInt8}
    (run : readGlyphData pfo dataStart = .ok data) : data = announced (pfo.drop dataStart) := by
  rw [readGlyphData_drop] at run
  obtain ⟨w, h, rest, split⟩ : ∃ w h rest, pfo.drop dataStart = w :: h :: rest := by
    cases dropped : pfo.drop dataStart with
    | nil =>
        rw [dropped] at run
        cases run
    | cons w later =>
        cases later with
        | nil =>
            rw [dropped] at run
            cases run
        | cons h rest => exact ⟨w, h, rest, rfl⟩
  rw [split, readGlyphData_take] at run
  rw [split]
  exact (Except.ok.inj run).symm

/-! ## The records of a file -/

/-- The items of a chain. -/
def Header.chain (header : Header) (pfo : List UInt8) (directoryIndex : Nat) :
    Except PyError (List (Nat × Nat)) := do
  let (tableSize, offset) ← header.readDirectoryItem pfo directoryIndex
  (List.range tableSize).mapM (header.readItem pfo offset)

/-- The codepoints of a file with their offsets, chain by chain. -/
def chainItems (pfo : List UInt8) : Except PyError (List (Nat × Nat)) := do
  let header ← readHeader pfo
  let chains ← (List.range hashtableDirectorySize).mapM (header.chain pfo)
  .ok chains.flatten

/-- What a file has for a codepoint, as far as it is announced. -/
def fileRecord (pfo : List UInt8) (c : Nat) : Except PyError (Option (List UInt8)) := do
  let items ← chainItems pfo
  let glyphs ← glyphSection pfo
  .ok ((items.lookup c).map fun offset => announced (glyphs.drop offset))

/-- A loop that first computes something of each item. -/
theorem foldlM_bind_ok {ε α β γ : Type} {f : α → Except ε β} {step : γ → β → Except ε γ}
    {items : List α} {state final : γ}
    (run : items.foldlM (fun state item => (f item).bind (step state)) state = .ok final) :
    ∃ values, items.mapM f = .ok values ∧ values.foldlM step state = .ok final := by
  induction items generalizing state with
  | nil => exact ⟨[], rfl, run⟩
  | cons item items ih =>
      rw [List.foldlM_cons] at run
      obtain ⟨next, here, run⟩ := bind_ok run
      obtain ⟨value, valueRun, here⟩ := bind_ok here
      obtain ⟨values, valuesRun, run⟩ := ih run
      refine ⟨value :: values, ?_, ?_⟩
      · rw [List.mapM_cons, valueRun]
        change (items.mapM f).bind _ = _
        rw [valuesRun]
        rfl
      · rw [List.foldlM_cons, here]
        exact run

theorem readChain_ok {header : Header} {pfo : List UInt8} {directoryIndex : Nat}
    {glyphs next : List (Nat × Glyph)}
    (run : header.readChain pfo glyphs directoryIndex = .ok next) :
    ∃ items, header.chain pfo directoryIndex = .ok items ∧
      items.foldlM (readChainItem pfo header.glyphsBase) glyphs = .ok next := by
  obtain ⟨⟨tableSize, offset⟩, directory, run⟩ := bind_ok run
  obtain ⟨items, read, run⟩ := foldlM_bind_ok run
  refine ⟨items, ?_, run⟩
  rw [Header.chain, directory]
  exact read

theorem foldlM_readChain_ok {header : Header} {pfo : List UInt8} {indices : List Nat}
    {glyphs final : List (Nat × Glyph)}
    (run : indices.foldlM (header.readChain pfo) glyphs = .ok final) :
    ∃ chains, indices.mapM (header.chain pfo) = .ok chains ∧
      chains.flatten.foldlM (readChainItem pfo header.glyphsBase) glyphs = .ok final := by
  induction indices generalizing glyphs with
  | nil => exact ⟨[], rfl, run⟩
  | cons index indices ih =>
      rw [List.foldlM_cons] at run
      obtain ⟨next, here, run⟩ := bind_ok run
      obtain ⟨items, chainRun, here⟩ := readChain_ok here
      obtain ⟨chains, chainsRun, run⟩ := ih run
      refine ⟨items :: chains, ?_, ?_⟩
      · rw [List.mapM_cons, chainRun]
        change (indices.mapM (header.chain pfo)).bind _ = _
        rw [chainsRun]
        rfl
      · rw [List.flatten_cons, List.foldlM_append, here]
        exact run

/-- What is read at an offset is announced there. -/
theorem GlyphsOf.foldlM_readChainItem_ok {pfo : List UInt8} {glyphsBase : Nat}
    {items later : List (Nat × Nat)} {glyphs final : List (Nat × Glyph)}
    (done : GlyphsOf (fun offset => announced (pfo.drop (glyphsBase + offset))) items glyphs)
    (run : later.foldlM (readChainItem pfo glyphsBase) glyphs = .ok final) :
    GlyphsOf (fun offset => announced (pfo.drop (glyphsBase + offset))) (items ++ later) final := by
  induction later generalizing items glyphs with
  | nil =>
      cases run
      rw [List.append_nil]
      exact done
  | cons item later ih =>
      rw [List.foldlM_cons] at run
      obtain ⟨next, here, run⟩ := bind_ok run
      rw [List.append_cons]
      apply ih _ run
      unfold readChainItem at here
      by_cases fresh : (glyphs.lookup item.2).isNone = true
      · rw [if_pos fresh] at here
        obtain ⟨data, read, here⟩ := bind_ok here
        obtain rfl := readGlyphData_announced read
        cases here
        exact done.concat_fresh ((done.lookup_isNone_iff _).mp fresh)
      · rw [if_neg fresh] at here
        cases here
        exact done.concat_known (by simpa [done.lookup_isNone_iff] using fresh)

/-- A font that is read has the records of its file. -/
theorem fontRead_record {pfo : List UInt8} {font : Font} (run : fontRead pfo = .ok font)
    (wellFormed : font.WellFormed) (c : Nat) : fileRecord pfo c = .ok (font.record c) := by
  obtain ⟨header, headerRun, run⟩ := bind_ok run
  obtain ⟨glyphs, glyphsRun, run⟩ := bind_ok run
  obtain ⟨chains, chainsRun, fold⟩ := foldlM_readChain_ok glyphsRun
  cases run
  have done := GlyphsOf.nil.foldlM_readChainItem_ok fold
  rw [List.nil_append] at done
  have items : chainItems pfo = .ok chains.flatten := by
    rw [chainItems, headerRun]
    change ((List.range hashtableDirectorySize).mapM (header.chain pfo)).bind _ = _
    rw [chainsRun]
    rfl
  have glyphTable : glyphSection pfo = .ok (pfo.drop header.glyphsBase) := by
    rw [glyphSection, headerRun]
    rfl
  rw [fileRecord, items]
  change (glyphSection pfo).bind _ = _
  rw [glyphTable]
  refine congrArg Except.ok ?_
  cases found : chains.flatten.lookup c with
  | none =>
      have absent : c ∉ chains.flatten.map Prod.fst := by
        intro inItems
        obtain ⟨item, member, rfl⟩ := List.mem_map.mp inItems
        have different := List.lookup_eq_none_iff.mp found item member
        simp at different
      exact (done.recordOf_eq_none absent).symm
  | some offset =>
      have member : (c, offset) ∈ chains.flatten := by
        obtain ⟨before, behind, split, -⟩ := List.lookup_eq_some_iff.mp found
        simp [split]
      rw [Option.map_some, List.drop_drop]
      exact (recordOf_of_distinct wellFormed.distinct_values (done.value_mem member)
        (mem_codeptsAt.mpr member)).symm

end PfoMerge

namespace FontGen

open PfoMerge

/-- The glyphs that are announced as a whole: all of them, or in a compressed font those whose
streams are not longer than their bitmaps. -/
def Font.GlyphKept (font : Font) (first : Nat) (gindex : GIndex) : Prop :=
  font.rle4 = true → font.GlyphFits first gindex

theorem glyphBits_announced_iff {font : Font} {first : Nat} {gindex : GIndex}
    {emitted : List UInt8} (bits : font.glyphBits first gindex = .ok emitted) :
    announced emitted = emitted ↔ font.GlyphKept first gindex := by
  cases compressed : font.rle4 with
  | true =>
      obtain ⟨w, h, body, rfl, long, fits⟩ := glyphBits_compressed compressed bits
      rw [Font.GlyphKept, compressed, ← fits, announced, List.take_eq_self_iff]
      exact ⟨fun whole _ => whole, fun kept => kept rfl⟩
  | false =>
      obtain ⟨w, h, rest, rfl, length⟩ := glyphBits_isRecord compressed bits
      refine iff_of_true (List.take_of_length_le ?_) (fun rle4 => ?_)
      · rw [length, bitmapDataSz_eq]
        rfl
      · rw [compressed] at rle4
        cases rle4

end FontGen

end Elbbep
