import Elbbep.FontGen
import Elbbep.PfoReading

/-!
# What `fontgen.py` writes

A font that `build_tables` and `bitstring` write has the layout that `font_write` gives to
the same glyphs: one glyph for each glyph index, with all the codepoints of the index.
-/

namespace Elbbep

namespace FontGen

open PythonStruct HashChains PfoMerge

/-! ## Adding glyphs -/

/-- The codepoints with a glyph index. -/
def codepointsOf (sources : List (Nat × GIndex)) (gindex : GIndex) : List Nat :=
  (sources.filter fun source => source.2 == gindex).map Prod.fst

theorem mem_codepointsOf {sources : List (Nat × GIndex)} {gindex : GIndex} {c : Nat} :
    c ∈ codepointsOf sources gindex ↔ (c, gindex) ∈ sources := by
  simp [codepointsOf]

theorem codepointsOf_concat (sources : List (Nat × GIndex)) (source : Nat × GIndex)
    (gindex : GIndex) :
    codepointsOf (sources ++ [source]) gindex =
      codepointsOf sources gindex ++ if source.2 = gindex then [source.1] else [] := by
  by_cases same : source.2 = gindex <;> simp [codepointsOf, List.filter_append, same]

/-- The glyphs of some sources, one for each glyph index. -/
structure Keyed (font : Font) (sources : List (Nat × GIndex)) (keyed : List (GIndex × Glyph)) :
    Prop where
  keys_nodup : (keyed.map Prod.fst).Nodup
  mem_keys : ∀ gindex, gindex ∈ keyed.map Prod.fst ↔ gindex ∈ sources.map Prod.snd
  codepoints : ∀ entry ∈ keyed, entry.2.codepoints = codepointsOf sources entry.1
  bits : ∀ entry ∈ keyed, ∃ c, entry.2.codepoints.head? = some c ∧
    font.glyphBits c entry.1 = .ok entry.2.data

/-- The offsets of glyphs that stand one after the other. -/
def offsetsFrom : (start : Nat) → List (GIndex × Glyph) → List (GIndex × Nat)
  | _, [] => []
  | start, entry :: keyed => (entry.1, start) :: offsetsFrom (start + entry.2.data.length) keyed

theorem offsetsFrom_append (start : Nat) (keyed others : List (GIndex × Glyph)) :
    offsetsFrom start (keyed ++ others) =
      offsetsFrom start keyed ++
        offsetsFrom (start + (keyed.flatMap fun entry => entry.2.data).length) others := by
  induction keyed generalizing start with
  | nil => simp [offsetsFrom]
  | cons entry keyed ih =>
      simp [offsetsFrom, ih, Nat.add_assoc]

theorem map_fst_offsetsFrom (start : Nat) (keyed : List (GIndex × Glyph)) :
    (offsetsFrom start keyed).map Prod.fst = keyed.map Prod.fst := by
  induction keyed generalizing start with
  | nil => rfl
  | cons entry keyed ih => simp [offsetsFrom, ih]

theorem mem_offsetsFrom {start : Nat} {keyed : List (GIndex × Glyph)} {gindex : GIndex}
    {offset : Nat} (member : (gindex, offset) ∈ offsetsFrom start keyed) :
    ∃ before glyph behind, keyed = before ++ (gindex, glyph) :: behind ∧
      offset = start + (before.flatMap fun entry => entry.2.data).length := by
  induction keyed generalizing start with
  | nil => cases member
  | cons entry keyed ih =>
      rcases List.mem_cons.mp member with here | later
      · cases here
        exact ⟨[], entry.2, keyed, rfl, rfl⟩
      · obtain ⟨before, glyph, behind, rfl, rfl⟩ := ih later
        exact ⟨entry :: before, glyph, behind, rfl, by simp [Nat.add_assoc]⟩

theorem placedFrom_append (start : Nat) (glyphs others : List Glyph) :
    placedFrom start (glyphs ++ others) =
      placedFrom start glyphs ++
        placedFrom (start + (glyphs.flatMap Glyph.data).length) others := by
  induction glyphs generalizing start with
  | nil => simp [placedFrom]
  | cons glyph glyphs ih => simp [placedFrom, ih, Nat.add_assoc]

/-- The state of `build_tables` after some sources. -/
structure Built (font : Font) (sources : List (Nat × GIndex)) (keyed : List (GIndex × Glyph))
    (state : BuildState) : Prop extends Keyed font sources keyed where
  glyphTable_eq : state.glyphTable = [0, 0, 0, 0] :: keyed.map fun entry => entry.2.data
  nextOffset_eq : state.nextOffset = 4 + (keyed.flatMap fun entry => entry.2.data).length
  lookup_eq : state.glyphIndicesLookup = offsetsFrom 4 keyed
  entries_perm : state.glyphEntries.Perm (placedFrom 4 (keyed.map Prod.snd))
  codepointBytes_eq : state.codepointBytes = 2
  number_eq : state.numberOfGlyphs = sources.length
  length_entries : state.glyphEntries.length = sources.length

namespace Built

variable {font : Font} {sources : List (Nat × GIndex)} {keyed : List (GIndex × Glyph)}
  {state : BuildState}

theorem start : Built font [] [] .start where
  keys_nodup := List.nodup_nil
  mem_keys := by simp
  codepoints := by simp
  bits := by simp
  glyphTable_eq := rfl
  nextOffset_eq := rfl
  lookup_eq := rfl
  entries_perm := List.Perm.refl _
  codepointBytes_eq := rfl
  number_eq := rfl
  length_entries := rfl

theorem codepointBytes_addEntry (built : Built font sources keyed state) {c : Nat}
    (small : c < 65536) (offset : Nat) : (state.addEntry c offset).codepointBytes = 2 := by
  rw [BuildState.addEntry, built.codepointBytes_eq]
  exact if_neg (by rw [maxTwoBytesCodepoint]; omega)

theorem flatMap_data (keyed : List (GIndex × Glyph)) :
    (keyed.map Prod.snd).flatMap Glyph.data = keyed.flatMap fun entry => entry.2.data := by
  rw [List.flatMap_map]

/-- A glyph index that is new. -/
theorem add_fresh (built : Built font sources keyed state) {source : Nat × GIndex}
    (small : source.1 < 65536) (fresh : source.2 ∉ keyed.map Prod.fst) {glyphBits : List UInt8}
    (bits : font.glyphBits source.1 source.2 = .ok glyphBits) :
    Built font (sources ++ [source]) (keyed ++ [(source.2, ⟨[source.1], glyphBits⟩)])
      (BuildState.addEntry
        { state with
          glyphTable := state.glyphTable ++ [glyphBits]
          nextOffset := state.nextOffset + glyphBits.length
          glyphIndicesLookup := state.glyphIndicesLookup ++ [(source.2, state.nextOffset)] }
        source.1 state.nextOffset) where
  keys_nodup := by
    rw [List.map_append, List.nodup_append_comm]
    exact List.nodup_cons.mpr ⟨fresh, built.keys_nodup⟩
  mem_keys gindex := by
    rw [List.map_append, List.map_append, List.mem_append, List.mem_append, built.mem_keys]
    simp
  codepoints entry member := by
    rw [codepointsOf_concat]
    rcases List.mem_append.mp member with old | new
    · have other : source.2 ≠ entry.1 := by
        intro same
        exact fresh (same ▸ List.mem_map_of_mem old)
      rw [built.codepoints entry old, if_neg other, List.append_nil]
    · obtain rfl := List.mem_singleton.mp new
      have none : codepointsOf sources source.2 = [] := by
        rw [List.eq_nil_iff_forall_not_mem]
        intro c here
        exact fresh ((built.mem_keys _).mpr (List.mem_map.mpr ⟨_, mem_codepointsOf.mp here, rfl⟩))
      simp [none]
  bits entry member := by
    rcases List.mem_append.mp member with old | new
    · exact built.bits entry old
    · obtain rfl := List.mem_singleton.mp new
      exact ⟨source.1, rfl, bits⟩
  glyphTable_eq := by simp [BuildState.addEntry, built.glyphTable_eq]
  nextOffset_eq := by
    simp [BuildState.addEntry, built.nextOffset_eq]
    omega
  lookup_eq := by
    rw [offsetsFrom_append, ← built.nextOffset_eq, ← built.lookup_eq]
    rfl
  entries_perm := by
    rw [List.map_append, placedFrom_append, flatMap_data, ← built.nextOffset_eq]
    exact built.entries_perm.append_right _
  codepointBytes_eq := built.codepointBytes_addEntry small state.nextOffset
  number_eq := by simp [BuildState.addEntry, built.number_eq]
  length_entries := by simp [BuildState.addEntry, built.length_entries]

/-- A glyph index that is known gets one more codepoint. -/
theorem add_known (built : Built font sources keyed state) {source : Nat × GIndex}
    (small : source.1 < 65536) {before behind : List (GIndex × Glyph)} {glyph : Glyph}
    (split : keyed = before ++ (source.2, glyph) :: behind) :
    Built font (sources ++ [source])
      (before ++ (source.2, ⟨glyph.codepoints ++ [source.1], glyph.data⟩) :: behind)
      (state.addEntry source.1 (4 + (before.flatMap fun entry => entry.2.data).length)) := by
  subst split
  have keys := built.keys_nodup
  have known : source.2 ∈ sources.map Prod.snd := (built.mem_keys _).mp (by simp)
  have others : ∀ entry ∈ before ++ behind, source.2 ≠ entry.1 := by
    intro entry member same
    rw [List.map_append, List.map_cons, List.nodup_middle, List.nodup_cons] at keys
    apply keys.1
    rw [← List.map_append]
    exact List.mem_map.mpr ⟨entry, member, same.symm⟩
  exact {
    keys_nodup := by simpa using keys
    mem_keys := fun gindex => by
      have same := built.mem_keys gindex
      rw [show (sources ++ [source]).map Prod.snd = sources.map Prod.snd ++ [source.2] from by simp,
        List.mem_append, ← same]
      simp only [List.map_append, List.map_cons, List.mem_append, List.mem_cons,
        List.not_mem_nil, or_false]
      tauto
    codepoints := fun entry member => by
      rw [codepointsOf_concat]
      rcases List.mem_append.mp member with inBefore | rest
      · rw [built.codepoints entry (by simp [inBefore]), if_neg (others entry (by simp [inBefore])),
          List.append_nil]
      · rcases List.mem_cons.mp rest with rfl | inBehind
        · rw [if_pos rfl, ← built.codepoints (source.2, glyph) (by simp)]
        · rw [built.codepoints entry (by simp [inBehind]),
            if_neg (others entry (by simp [inBehind])), List.append_nil]
    bits := fun entry member => by
      rcases List.mem_append.mp member with inBefore | rest
      · exact built.bits entry (by simp [inBefore])
      · rcases List.mem_cons.mp rest with rfl | inBehind
        · obtain ⟨c, head, bits⟩ := built.bits (source.2, glyph) (by simp)
          refine ⟨c, ?_, bits⟩
          simp only at head
          rw [List.head?_append, head]
          rfl
        · exact built.bits entry (by simp [inBehind])
    glyphTable_eq := by simp [BuildState.addEntry, built.glyphTable_eq]
    nextOffset_eq := by simp [BuildState.addEntry, built.nextOffset_eq]
    lookup_eq := by
      rw [BuildState.addEntry, built.lookup_eq, offsetsFrom_append, offsetsFrom_append]
      rfl
    entries_perm := by
      have placed := built.entries_perm
      rw [List.map_append, List.map_cons, placedFrom_append, placedFrom, flatMap_data] at placed ⊢
      rw [List.map_append, List.map_singleton]
      refine (placed.append_right _).trans ?_
      rw [List.append_assoc, List.append_assoc, List.append_assoc]
      exact List.Perm.append_left _ (List.Perm.append_left _ List.perm_append_comm)
    codepointBytes_eq := built.codepointBytes_addEntry small _
    number_eq := by simp [BuildState.addEntry, built.number_eq]
    length_entries := by simp [BuildState.addEntry, built.length_entries] }

theorem addGlyph_ok (built : Built font sources keyed state) {source : Nat × GIndex}
    (small : source.1 < 65536) {next : BuildState} (run : font.addGlyph state source = .ok next) :
    ∃ keyed', Built font (sources ++ [source]) keyed' next := by
  unfold Font.addGlyph at run
  rw [built.lookup_eq] at run
  split at run
  next absent =>
    have fresh : source.2 ∉ keyed.map Prod.fst := by
      rw [← map_fst_offsetsFrom 4, List.mem_map]
      rintro ⟨entry, member, same⟩
      have other := List.lookup_eq_none_iff.mp absent entry member
      simp [same] at other
    obtain ⟨glyphBits, bits, run⟩ := bind_ok run
    cases run
    rw [← built.lookup_eq]
    exact ⟨_, built.add_fresh small fresh bits⟩
  next offset found =>
    obtain ⟨first, second, split, -⟩ := List.lookup_eq_some_iff.mp found
    obtain ⟨before, glyph, behind, keyedEq, rfl⟩ :=
      mem_offsetsFrom
        (split ▸ (by simp : (source.2, offset) ∈ first ++ (source.2, offset) :: second))
    cases run
    exact ⟨_, built.add_known small keyedEq⟩

/-- After all sources. -/
theorem foldlM_addGlyph (built : Built font sources keyed state) {later : List (Nat × GIndex)}
    (small : ∀ source ∈ later, source.1 < 65536) {final : BuildState}
    (run : later.foldlM font.addGlyph state = .ok final) :
    ∃ keyed', Built font (sources ++ later) keyed' final := by
  induction later generalizing sources keyed state with
  | nil =>
      cases run
      exact ⟨keyed, by simpa using built⟩
  | cons source later ih =>
      rw [List.foldlM_cons] at run
      obtain ⟨next, step, run⟩ := bind_ok run
      obtain ⟨keyed', builtNext⟩ := built.addGlyph_ok (small source (by simp)) step
      obtain ⟨keyed'', builtAll⟩ :=
        ih builtNext (fun other member => small other (by simp [member])) run
      exact ⟨keyed'', by simpa using builtAll⟩

end Built

/-! ## The tables and the file -/

/-- The tables of some entries. -/
def offsetTablesOf (chainItem : ChainItem) (entries : List (Nat × Nat)) : OffsetTables :=
  ⟨chain binNo chainItem.encode entries, fun index => (bin entries index).length⟩

theorem packEntry_eq (chainItem : ChainItem) (entry : Nat × Nat) :
    packEntry 2 (chainItem.size - 2) entry = chainItem.pack entry.1 entry.2 := by
  cases chainItem <;> rfl

theorem foldlM_addToOffsetTable {chainItem : ChainItem} {entries later : List (Nat × Nat)}
    {tables : OffsetTables}
    (run : later.foldlM (addToOffsetTable 2 (chainItem.size - 2))
      (offsetTablesOf chainItem entries) = .ok tables) :
    tables = offsetTablesOf chainItem (entries ++ later) ∧
      ∀ entry ∈ later, chainItem.Fits entry := by
  induction later generalizing entries with
  | nil =>
      cases run
      simp
  | cons entry later ih =>
      rw [List.foldlM_cons, addToOffsetTable, packEntry_eq, ChainItem.pack_eq] at run
      obtain ⟨next, step, run⟩ := bind_ok run
      split at step
      next fits =>
        have nextEq : next = offsetTablesOf chainItem (entries ++ [entry]) := by
          rw [offsetTablesOf, chain_concat, length_bin_concat]
          exact (Except.ok.inj step).symm
        obtain ⟨tablesEq, laterFits⟩ := ih (nextEq ▸ run)
        exact ⟨by simpa using tablesEq, List.forall_mem_cons.mpr ⟨fits, laterFits⟩⟩
      next => cases step

/-- The hash table is the directory of `font_write`. -/
theorem addToHashTable_eq (chainItem : ChainItem) (entries : List (Nat × Nat)) :
    addToHashTable chainItem.size (offsetTablesOf chainItem entries).bucketSizes =
      addDirectoryItem (chainState chainItem entries) := by
  funext acc index
  have length : (chain binNo chainItem.encode entries index).length =
      (bin entries index).length * chainItem.size := by
    rw [chain, length_flatMap_uniform (fun entry _ => chainItem.length_encode entry), Nat.mul_comm]
    rfl
  rw [addToHashTable, addDirectoryItem, chainState, length]
  rfl

theorem fontinfoBits_three (maxHeight numberOfGlyphs features : Nat) :
    fontinfoBits 3 maxHeight numberOfGlyphs 2 features =
      packHeader maxHeight numberOfGlyphs wildcardCodepoint features := rfl

namespace Font

variable (font : Font)

/-- Offsets take two bytes only in version 3. -/
def offset16 (glyphs : List Glyph) : Bool :=
  font.version = 3 ∧ (glyphTableOf glyphs).length < 65536

def offsetItem (glyphs : List Glyph) : ChainItem :=
  if font.offset16 glyphs then .hh else .hl

def features (glyphs : List Glyph) : Nat :=
  (if font.rle4 then featureRle4 else 0) + if font.offset16 glyphs then featureOffset16 else 0

/-- A font file as `fontgen.py` writes it. -/
structure Generated (sources : List (Nat × GIndex)) (bytes : List UInt8)
    (keyed : List (GIndex × Glyph)) (pairs : List (Nat × Nat)) (fontinfo : List UInt8) : Prop
    extends Keyed font sources keyed where
  placed : pairs.Perm (placedFrom 4 (keyed.map Prod.snd))
  bytes_eq : bytes = pfoFile (font.offsetItem (keyed.map Prod.snd)) pairs fontinfo
    (glyphTableOf (keyed.map Prod.snd))
  fits : TablesFit (font.offsetItem (keyed.map Prod.snd)) pairs
  length_eq : pairs.length = sources.length
  fontinfo_eq : fontinfoBits font.version font.maxHeight pairs.length 2
    (font.features (keyed.map Prod.snd)) = .ok fontinfo

end Font

/-- The layout of the file; the entries are sorted by their codepoints. -/
theorem bitstring_sorted {font : Font} {sources : List (Nat × GIndex)}
    (small : ∀ source ∈ sources, source.1 < 65536) {bytes : List UInt8}
    (run : font.bitstring sources = .ok bytes) :
    ∃ keyed pairs fontinfo, font.Generated sources bytes keyed pairs fontinfo ∧
      pairs.Pairwise fun pair next => pair.1 ≤ next.1 := by
  obtain ⟨state, stateRun, run⟩ := bind_ok run
  obtain ⟨keyed, built⟩ := Built.start.foldlM_addGlyph small stateRun
  rw [List.nil_append] at built
  have tableEq : state.glyphTable.flatten = glyphTableOf (keyed.map Prod.snd) := by
    rw [built.glyphTable_eq, glyphTableOf, List.flatten_cons, Built.flatMap_data, List.flatMap_def]
  have lengthEq : (state.glyphTable.map List.length).sum =
      (glyphTableOf (keyed.map Prod.snd)).length := by
    rw [← tableEq, List.length_flatten]
  have narrow : decide (font.version = 3 ∧ (glyphTableOf (keyed.map Prod.snd)).length < 65536) =
      font.offset16 (keyed.map Prod.snd) := rfl
  have sizeEq : (if font.offset16 (keyed.map Prod.snd) then 2 else 4) =
      (font.offsetItem (keyed.map Prod.snd)).size - 2 := by
    rw [Font.offsetItem]
    cases font.offset16 (keyed.map Prod.snd) <;> rfl
  have entrySize : (font.offsetItem (keyed.map Prod.snd)).size - 2 + 2 =
      (font.offsetItem (keyed.map Prod.snd)).size := by
    cases font.offsetItem (keyed.map Prod.snd) <;> rfl
  change ((state.glyphEntries.insertionSort fun a b => a.1 ≤ b.1).foldlM
    (addToOffsetTable state.codepointBytes
      (if decide (font.version = 3 ∧ (state.glyphTable.map List.length).sum < 65536) then 2 else 4))
    (offsetTablesOf (font.offsetItem (keyed.map Prod.snd)) [])).bind _ = .ok bytes at run
  obtain ⟨tables, tablesRun, run⟩ := bind_ok run
  simp only [lengthEq, built.codepointBytes_eq, narrow, sizeEq, entrySize] at run tablesRun
  obtain ⟨rfl, fits⟩ := foldlM_addToOffsetTable tablesRun
  rw [List.nil_append, addToHashTable_eq] at run
  obtain ⟨acc, directoryRun, run⟩ := bind_ok run
  obtain ⟨rfl, counts, offsets⟩ := foldlM_addDirectoryItem directoryRun
  obtain ⟨fontinfo, fontinfoRun, run⟩ := bind_ok run
  have sorted := List.perm_insertionSort (fun a b : Nat × Nat => a.1 ≤ b.1) state.glyphEntries
  have placed := sorted.trans built.entries_perm
  have number : (state.glyphEntries.insertionSort fun a b => a.1 ≤ b.1).length =
      sources.length := by
    rw [sorted.length_eq, built.length_entries]
  refine ⟨keyed, _, fontinfo, ⟨built.toKeyed, placed, ?_, ⟨fits, counts, offsets⟩, number, ?_⟩, ?_⟩
  · rw [← Except.ok.inj run, tableEq, pfoFile, List.append_assoc, List.append_assoc]
    rfl
  · rw [number, ← built.number_eq]
    exact fontinfoRun
  · have : Std.Total fun pair next : Nat × Nat => pair.1 ≤ next.1 :=
      ⟨fun pair next => Nat.le_total pair.1 next.1⟩
    have : IsTrans (Nat × Nat) fun pair next => pair.1 ≤ next.1 :=
      ⟨fun _ _ _ => Nat.le_trans⟩
    exact List.pairwise_insertionSort _ _

theorem bitstring_ok {font : Font} {sources : List (Nat × GIndex)}
    (small : ∀ source ∈ sources, source.1 < 65536) {bytes : List UInt8}
    (run : font.bitstring sources = .ok bytes) :
    ∃ keyed pairs fontinfo, font.Generated sources bytes keyed pairs fontinfo := by
  obtain ⟨keyed, pairs, fontinfo, generated, -⟩ := bitstring_sorted small run
  exact ⟨keyed, pairs, fontinfo, generated⟩

/-- The header that `font_read` finds in a file of version 3. -/
theorem Font.Generated.header_eq {font : Font} {sources : List (Nat × GIndex)}
    {bytes : List UInt8} {keyed : List (GIndex × Glyph)} {pairs : List (Nat × Nat)}
    {fontinfo : List UInt8} (generated : font.Generated sources bytes keyed pairs fontinfo)
    (version : font.version = 3) :
    readHeader bytes = .ok ⟨10, font.maxHeight, pairs.length, wildcardCodepoint,
        font.offsetItem (keyed.map Prod.snd), font.rle4⟩ ∧ 10 = fontinfo.length := by
  have run := generated.fontinfo_eq
  rw [version, fontinfoBits_three, packHeader_eq] at run
  split at run
  next small =>
    cases run
    refine ⟨?_, rfl⟩
    rw [generated.bytes_eq, pfoFile, readHeader_headerBytes small.1 small.2.1 small.2.2.1,
      Font.offsetItem, Font.features]
    cases font.offset16 (keyed.map Prod.snd) <;> cases font.rle4 <;> rfl
  next => cases run

end FontGen

end Elbbep
