import Elbbep.PfoLayout

/-!
# What `font_write` writes

When `font_write` succeeds, the file has the layout of a font file, and the data of every
glyph stands at the offset of its codepoints.
-/

namespace Elbbep

namespace PfoMerge

open PythonStruct HashChains

/-! ## The chains and the directory -/

/-- The chains of some pairs. -/
def chainState (chainItem : ChainItem) (pairs : List (Nat × Nat)) : ChainState :=
  ⟨chain binNo chainItem.encode pairs, fun index => (bin pairs index).length⟩

theorem chain_concat (chainItem : ChainItem) (pairs : List (Nat × Nat)) (pair : Nat × Nat) :
    chain binNo chainItem.encode (pairs ++ [pair]) =
      Function.update (chain binNo chainItem.encode pairs) (binNo pair)
        (chain binNo chainItem.encode pairs (binNo pair) ++ chainItem.encode pair) := by
  funext index
  rw [chain, bucket_append, List.flatMap_append, bucket_cons]
  by_cases same : binNo pair = index
  · subst same
    simp [bucket, chain]
  · simp [bucket, same, Ne.symm same, chain]

theorem length_bin_concat (pairs : List (Nat × Nat)) (pair : Nat × Nat) :
    (fun index => (bin (pairs ++ [pair]) index).length) =
      Function.update (fun index => (bin pairs index).length) (binNo pair)
        ((bin pairs (binNo pair)).length + 1) := by
  funext index
  rw [bin, bucket_append, List.length_append, bucket_cons]
  by_cases same : binNo pair = index
  · subst same
    simp [bucket, bin]
  · simp [bucket, same, Ne.symm same, bin]

theorem addToChain_chainState (chainItem : ChainItem) (pairs : List (Nat × Nat))
    (pair : Nat × Nat) :
    addToChain chainItem (chainState chainItem pairs) pair =
      if chainItem.Fits pair then
        if (bin pairs (binNo pair)).length + 1 < offsetTableMaxSize then
          .ok (chainState chainItem (pairs ++ [pair]))
        else .error .assertionError
      else .error .structError := by
  rw [addToChain, ChainItem.pack_eq, chainState, chainState, chain_concat, length_bin_concat]
  by_cases fits : chainItem.Fits pair
  · rw [if_pos fits, if_pos fits]
    rfl
  · rw [if_neg fits, if_neg fits]
    rfl

theorem foldlM_addToChain {chainItem : ChainItem} {pairs later : List (Nat × Nat)}
    {state : ChainState}
    (run : later.foldlM (addToChain chainItem) (chainState chainItem pairs) = .ok state) :
    state = chainState chainItem (pairs ++ later) ∧ (∀ pair ∈ later, chainItem.Fits pair) ∧
      ∀ index, (bin pairs index).length < offsetTableMaxSize →
        (bin (pairs ++ later) index).length < offsetTableMaxSize := by
  induction later generalizing pairs with
  | nil =>
      cases run
      simp
  | cons pair later ih =>
      rw [List.foldlM_cons, addToChain_chainState] at run
      obtain ⟨next, step, run⟩ := bind_ok run
      split at step
      next fits =>
        split at step
        next short =>
          cases step
          obtain ⟨stateEq, laterFits, counts⟩ := ih run
          refine ⟨by simpa using stateEq, List.forall_mem_cons.mpr ⟨fits, laterFits⟩, ?_⟩
          intro index before
          have here : (bin (pairs ++ [pair]) index).length < offsetTableMaxSize := by
            rw [congrFun (length_bin_concat pairs pair) index]
            by_cases same : index = binNo pair
            · subst same
              simpa using short
            · simpa [same] using before
          simpa using counts index here
        next => cases step
      next => cases step

/-- An error is a full bucket or a value that does not fit. -/
theorem foldlM_addToChain_error {chainItem : ChainItem} {pairs later : List (Nat × Nat)}
    {error : PyError}
    (run : later.foldlM (addToChain chainItem) (chainState chainItem pairs) = .error error) :
    (error = .assertionError ∧
        ∃ index, offsetTableMaxSize ≤ (bin (pairs ++ later) index).length) ∨
      (error = .structError ∧ ∃ pair ∈ later, ¬ chainItem.Fits pair) := by
  induction later generalizing pairs with
  | nil => cases run
  | cons pair later ih =>
      rw [List.foldlM_cons, addToChain_chainState] at run
      by_cases fits : chainItem.Fits pair
      · rw [if_pos fits] at run
        by_cases short : (bin pairs (binNo pair)).length + 1 < offsetTableMaxSize
        · rw [if_pos short] at run
          rcases ih run with ⟨isAssertion, index, full⟩ | ⟨isStruct, other, member, tooLarge⟩
          · rw [List.append_assoc, List.singleton_append] at full
            exact Or.inl ⟨isAssertion, index, full⟩
          · exact Or.inr ⟨isStruct, other, List.mem_cons_of_mem _ member, tooLarge⟩
        · rw [if_neg short] at run
          refine Or.inl ⟨(Except.error.inj run).symm, binNo pair, ?_⟩
          have split : bin (pairs ++ pair :: later) (binNo pair) =
              bin pairs (binNo pair) ++ pair :: bin later (binNo pair) := by
            rw [bin, bucket_append, bucket_cons, if_pos rfl]
            rfl
          rw [split, List.length_append, List.length_cons]
          omega
      · rw [if_neg fits] at run
        exact Or.inr ⟨(Except.error.inj run).symm, pair, List.mem_cons_self, fits⟩

theorem addDirectoryItem_eq (state : ChainState) (acc : List UInt8 × Nat) (x : Nat) :
    addDirectoryItem state acc x =
      if x < 256 ∧ state.chainCounts x < 256 ∧ acc.2 < 65536 then
        .ok (acc.1 ++ ([UInt8.ofNat x, UInt8.ofNat (state.chainCounts x)] ++ encodeH acc.2),
          acc.2 + (state.chains x).length)
      else .error .structError := by
  rw [addDirectoryItem, packB_natCast, packB_natCast, packH_natCast]
  by_cases hash : x < 256
  · by_cases count : state.chainCounts x < 256
    · by_cases off : acc.2 < 65536 <;> simp only [hash, count, off, if_true, and_self, if_false,
        and_false] <;> rfl
    · simp only [hash, count, if_true, if_false, and_false, false_and]
      rfl
  · simp only [hash, if_false, false_and]
    rfl

/-- The directory of some pairs. -/
theorem foldlM_addDirectoryItem {chainItem : ChainItem} {pairs : List (Nat × Nat)} {size : Nat}
    {acc : List UInt8 × Nat}
    (run : (List.range size).foldlM (addDirectoryItem (chainState chainItem pairs)) ([], 0) =
      .ok acc) :
    acc = ((List.range size).flatMap (directoryItem chainItem pairs),
        binOffset chainItem pairs size) ∧
      (∀ index < size, (bin pairs index).length < 256) ∧
      ∀ index < size, binOffset chainItem pairs index < 65536 := by
  induction size generalizing acc with
  | zero =>
      cases run
      simp [binOffset, chainOffset, chains]
  | succ size ih =>
      rw [List.range_succ, List.foldlM_append] at run
      obtain ⟨before, beforeRun, run⟩ := bind_ok run
      obtain ⟨rfl, counts, offsets⟩ := ih beforeRun
      rw [List.foldlM_cons, addDirectoryItem_eq] at run
      obtain ⟨after, step, run⟩ := bind_ok run
      cases run
      split at step
      next small =>
        cases step
        refine ⟨?_, ?_, ?_⟩
        · rw [List.range_succ, List.flatMap_append, List.flatMap_singleton, binOffset, binOffset,
            chainOffset_succ]
          rfl
        · intro index bound
          rcases Nat.lt_succ_iff_lt_or_eq.mp bound with earlier | rfl
          · exact counts index earlier
          · exact small.2.1
        · intro index bound
          rcases Nat.lt_succ_iff_lt_or_eq.mp bound with earlier | rfl
          · exact offsets index earlier
          · exact small.2.2
      next => cases step

theorem foldlM_addDirectoryItem_fits {chainItem : ChainItem} {pairs : List (Nat × Nat)} {size : Nat}
    (small : size ≤ 256) (counts : ∀ index < size, (bin pairs index).length < 256)
    (offsets : ∀ index < size, binOffset chainItem pairs index < 65536) :
    (List.range size).foldlM (addDirectoryItem (chainState chainItem pairs)) ([], 0) =
      .ok ((List.range size).flatMap (directoryItem chainItem pairs),
        binOffset chainItem pairs size) := by
  induction size with
  | zero => rfl
  | succ size ih =>
      have before := ih (by omega) (fun index bound => counts index (by omega))
        fun index bound => offsets index (by omega)
      have step : addDirectoryItem (chainState chainItem pairs)
          ((List.range size).flatMap (directoryItem chainItem pairs),
            binOffset chainItem pairs size) size =
          .ok ((List.range size).flatMap (directoryItem chainItem pairs) ++
            directoryItem chainItem pairs size, binOffset chainItem pairs (size + 1)) := by
        rw [addDirectoryItem_eq,
          if_pos ⟨by omega, counts size (by omega), offsets size (by omega)⟩, binOffset, binOffset,
          chainOffset_succ]
        rfl
      rw [List.range_succ, List.flatMap_append, List.flatMap_singleton]
      simp only [List.foldlM_append, List.foldlM_cons, List.foldlM_nil, before, bind, Except.bind,
        step, pure, Except.pure]

theorem foldlM_addDirectoryItem_error {state : ChainState} {indices : List Nat}
    {acc : List UInt8 × Nat} {error : PyError}
    (run : indices.foldlM (addDirectoryItem state) acc = .error error) : error = .structError := by
  induction indices generalizing acc with
  | nil => cases run
  | cons index indices ih =>
      rw [List.foldlM_cons, addDirectoryItem_eq] at run
      rcases bind_error run with failed | ⟨next, -, failed⟩
      · split at failed
        · cases failed
        · exact (Except.error.inj failed).symm
      · exact ih failed

/-! ## The glyphs -/

/-- The codepoints of some glyphs that stand one after the other from `start` on, with their
offsets. -/
def placedFrom : (start : Nat) → List Glyph → List (Nat × Nat)
  | _, [] => []
  | start, glyph :: glyphs =>
      glyph.codepoints.map (fun cpt => (cpt, start)) ++
        placedFrom (start + glyph.data.length) glyphs

theorem foldl_addGlyph (glyphs : List Glyph) (pairs : List (Nat × Nat)) (data : List UInt8) :
    glyphs.foldl addGlyph (pairs, data) =
      (pairs ++ placedFrom data.length glyphs, data ++ glyphs.flatMap Glyph.data) := by
  induction glyphs generalizing pairs data with
  | nil => simp [placedFrom]
  | cons glyph glyphs ih =>
      rw [List.foldl_cons, addGlyph, ih]
      simp [placedFrom]

theorem map_fst_placedFrom (start : Nat) (glyphs : List Glyph) :
    (placedFrom start glyphs).map Prod.fst = glyphs.flatMap Glyph.codepoints := by
  induction glyphs generalizing start with
  | nil => rfl
  | cons glyph glyphs ih => simp [placedFrom, ih, Function.comp_def]

/-- A codepoint stands with a glyph of its own. -/
theorem mem_placedFrom {start : Nat} {glyphs : List Glyph} {pair : Nat × Nat} :
    pair ∈ placedFrom start glyphs ↔
      ∃ before glyph behind, glyphs = before ++ glyph :: behind ∧ pair.1 ∈ glyph.codepoints ∧
        pair.2 = start + (before.flatMap Glyph.data).length := by
  induction glyphs generalizing start with
  | nil => simp [placedFrom]
  | cons first glyphs ih =>
      rw [placedFrom, List.mem_append, ih]
      constructor
      · rintro (here | ⟨before, glyph, behind, rfl, member, offset⟩)
        · obtain ⟨cpt, member, rfl⟩ := List.mem_map.mp here
          exact ⟨[], first, glyphs, rfl, member, by simp⟩
        · refine ⟨first :: before, glyph, behind, rfl, member, ?_⟩
          rw [offset, List.flatMap_cons, List.length_append]
          omega
      · rintro ⟨before, glyph, behind, split, member, offset⟩
        cases before with
        | nil =>
            cases split
            refine Or.inl (List.mem_map.mpr ⟨pair.1, member, ?_⟩)
            rw [List.flatMap_nil, List.length_nil, Nat.add_zero] at offset
            rw [← offset]
        | cons other before =>
            cases split
            refine Or.inr ⟨before, glyph, behind, rfl, member, ?_⟩
            rw [offset, List.flatMap_cons, List.length_append]
            omega

/-- The codepoints of a bucket. -/
def hashed (codepoints : List Nat) (index : Nat) : List Nat :=
  codepoints.filter fun c => c % hashtableDirectorySize == index

theorem length_bin_eq {pairs : List (Nat × Nat)} {codepoints : List Nat}
    (perm : (pairs.map Prod.fst).Perm codepoints) (index : Nat) :
    (bin pairs index).length = (hashed codepoints index).length := by
  have same := (perm.filter fun c => c % hashtableDirectorySize == index).length_eq
  rw [List.filter_map, List.length_map] at same
  exact same

/-! ## The header and the file -/

/-- The header of a version 3 file. -/
def headerBytes (maxHeight codeptCt wildcard features : Nat) : List UInt8 :=
  [3, UInt8.ofNat maxHeight] ++ encodeH codeptCt ++ encodeH wildcard ++
    [255, 2, 10, UInt8.ofNat features]

theorem packHeader_eq (maxHeight codeptCt wildcard features : Nat) :
    packHeader maxHeight codeptCt wildcard features =
      if maxHeight < 256 ∧ codeptCt < 65536 ∧ wildcard < 65536 ∧ features < 256 then
        .ok (headerBytes maxHeight codeptCt wildcard features)
      else .error .structError := by
  rw [packHeader, packB_natCast, packH_natCast, packH_natCast, packB_natCast, packB_natCast]
  by_cases height : maxHeight < 256
  · by_cases count : codeptCt < 65536
    · by_cases wild : wildcard < 65536
      · by_cases feature : features < 256
        · simp only [height, count, wild, feature, if_true, and_self]
          rfl
        · simp only [height, count, wild, feature, if_true, if_false, and_false]
          rfl
      · simp only [height, count, wild, if_true, if_false, and_false, false_and]
        rfl
    · simp only [height, count, if_true, if_false, and_false, false_and]
      rfl
  · simp only [height, if_false, false_and]
    rfl

theorem readHeader_headerBytes {maxHeight codeptCt wildcard features : Nat}
    (height : maxHeight < 256) (count : codeptCt < 65536) (wild : wildcard < 65536)
    (rest : List UInt8) :
    readHeader (headerBytes maxHeight codeptCt wildcard features ++ rest) =
      .ok ⟨10, maxHeight, codeptCt, wildcard,
        if UInt8.ofNat features &&& 1 = 0 then .hl else .hh, UInt8.ofNat features &&& 2 ≠ 0⟩ := by
  have heightEq := toNat_ofNat_byte height
  have countEq := u16_encodeH count
  have wildEq := u16_encodeH wild
  simp [headerBytes, encodeH, readHeader, slice, heightEq, countEq, wildEq]

namespace Font

variable (font : Font)

/-- The codepoints of a font with their offsets, in the order of the codepoints. -/
def pairs : List (Nat × Nat) :=
  (placedFrom 4 font.sortedGlyphs).insertionSort fun a b => a.1 ≤ b.1

def glyphTable : List UInt8 :=
  [0, 0, 0, 0] ++ font.sortedGlyphs.flatMap Glyph.data

theorem sortedGlyphs_perm : font.sortedGlyphs.Perm (font.glyphs.map Prod.snd) :=
  List.perm_insertionSort _ _

theorem pairs_perm : font.pairs.Perm (placedFrom 4 font.sortedGlyphs) :=
  List.perm_insertionSort _ _

theorem length_pairs :
    font.pairs.length = (font.glyphs.map fun entry => entry.2.codepoints.length).sum := by
  rw [font.pairs_perm.length_eq, ← List.length_map Prod.fst, map_fst_placedFrom,
    List.length_flatMap, (font.sortedGlyphs_perm.map _).sum_eq, List.map_map]
  rfl

theorem chainItem_eq_features :
    (if UInt8.ofNat font.features &&& 1 = 0 then ChainItem.hl else .hh) = font.chainItem ∧
      decide (UInt8.ofNat font.features &&& 2 ≠ 0) = font.compressed := by
  rw [features, chainItem]
  by_cases small : font.bitmapdataLength < 65535 <;> cases font.compressed <;> simp [small] <;>
    decide

/-- All codepoints of a font. -/
def codepoints (font : Font) : List Nat :=
  font.glyphs.flatMap fun entry => entry.2.codepoints

variable {font} in
theorem pairs_codepoints : (font.pairs.map Prod.fst).Perm font.codepoints := by
  have placed := font.pairs_perm.map Prod.fst
  rw [map_fst_placedFrom] at placed
  have sorted := font.sortedGlyphs_perm.flatMap_right Glyph.codepoints
  rw [List.flatMap_map] at sorted
  exact placed.trans sorted

/-- A bucket with more codepoints than `font_write` allows. -/
def FullBucket : Prop :=
  ∃ index, offsetTableMaxSize ≤ (hashed font.codepoints index).length

/-- A value that does not fit into its field: in the header, in an item of a chain, or the offset of
a chain. -/
def OutOfRange : Prop :=
  ¬ (font.maxHeight < 256 ∧ font.pairs.length < 65536 ∧ font.wildcard < 65536) ∨
    (∃ pair ∈ font.pairs, ¬ font.chainItem.Fits pair) ∨
    ∃ index < hashtableDirectorySize, 65536 ≤ binOffset font.chainItem font.pairs index

/-- What a written font file is like. -/
structure Written (bytes : List UInt8) : Prop where
  bytes_eq : bytes = pfoFile font.chainItem font.pairs
    (headerBytes font.maxHeight font.pairs.length font.wildcard font.features) font.glyphTable
  header_eq : readHeader bytes = .ok ⟨10, font.maxHeight, font.pairs.length, font.wildcard,
    font.chainItem, font.compressed⟩
  fits : TablesFit font.chainItem font.pairs
  count : ∀ index, (bin font.pairs index).length < offsetTableMaxSize

end Font

/-- `font_write` by its parts. -/
theorem fontWrite_eq (font : Font) :
    fontWrite font =
      (packHeader font.maxHeight font.pairs.length font.wildcard font.features).bind fun header =>
        if font.glyphs.any fun entry => entry.2.codepoints.isEmpty then .error .indexError
        else
          (font.pairs.foldlM (addToChain font.chainItem) (chainState font.chainItem [])).bind
            fun state =>
              ((List.range hashtableDirectorySize).foldlM (addDirectoryItem state) ([], 0)).bind
                fun acc => .ok (header ++ acc.1 ++
                  (List.range hashtableDirectorySize).flatMap state.chains ++ font.glyphTable) := by
  simp only [fontWrite, foldl_addGlyph, ← font.length_pairs]
  rfl

theorem fontWrite_ok {font : Font} {bytes : List UInt8} (run : fontWrite font = .ok bytes) :
    font.Written bytes := by
  rw [fontWrite_eq, packHeader_eq] at run
  obtain ⟨header, headerRun, run⟩ := bind_ok run
  split at headerRun
  swap
  · cases headerRun
  next small =>
    cases headerRun
    split at run
    · cases run
    · obtain ⟨state, stateRun, run⟩ := bind_ok run
      obtain ⟨acc, directoryRun, run⟩ := bind_ok run
      obtain ⟨rfl, itemFits, counts⟩ := foldlM_addToChain stateRun
      rw [List.nil_append] at directoryRun run counts
      obtain ⟨rfl, countsFit, offsetsFit⟩ := foldlM_addDirectoryItem directoryRun
      have bytesEq : bytes = pfoFile font.chainItem font.pairs
          (headerBytes font.maxHeight font.pairs.length font.wildcard font.features)
          font.glyphTable := by
        rw [← Except.ok.inj run, pfoFile, List.append_assoc, List.append_assoc]
        rfl
      refine ⟨bytesEq, ?_, ⟨itemFits, countsFit, offsetsFit⟩, fun index => ?_⟩
      · rw [bytesEq, pfoFile, readHeader_headerBytes small.1 small.2.1 small.2.2.1,
          font.chainItem_eq_features.1, font.chainItem_eq_features.2]
      · exact counts index (by simp [bin, bucket, offsetTableMaxSize])

theorem Font.features_lt (font : Font) : font.features < 256 := by
  rw [features]
  split <;> split <;> decide

/-- `font_write` fails with a full bucket or a value that does not fit. -/
theorem fontWrite_error {font : Font} (nonempty : ∀ entry ∈ font.glyphs, entry.2.codepoints ≠ [])
    {error : PyError} (run : fontWrite font = .error error) :
    (error = .assertionError ∧ font.FullBucket) ∨ (error = .structError ∧ font.OutOfRange) := by
  rw [fontWrite_eq, packHeader_eq] at run
  by_cases header : font.maxHeight < 256 ∧ font.pairs.length < 65536 ∧ font.wildcard < 65536
  · rw [if_pos ⟨header.1, header.2.1, header.2.2, font.features_lt⟩] at run
    rcases bind_error run with failed | ⟨_, -, failed⟩
    · cases failed
    rw [if_neg (by simpa using fun key glyph member => nonempty (key, glyph) member)] at failed
    rcases bind_error failed with failed | ⟨state, stateRun, failed⟩
    · rcases foldlM_addToChain_error failed with ⟨isAssertion, index, full⟩ | ⟨isStruct, tooLarge⟩
      · rw [List.nil_append, length_bin_eq Font.pairs_codepoints] at full
        exact Or.inl ⟨isAssertion, index, full⟩
      · exact Or.inr ⟨isStruct, Or.inr (Or.inl tooLarge)⟩
    · obtain ⟨rfl, -, counts⟩ := foldlM_addToChain stateRun
      rw [List.nil_append] at failed counts
      rcases bind_error failed with failed | ⟨acc, -, failed⟩
      · refine Or.inr ⟨foldlM_addDirectoryItem_error failed, Or.inr (Or.inr ?_)⟩
        by_contra near
        have offsets : ∀ index < hashtableDirectorySize,
            binOffset font.chainItem font.pairs index < 65536 := by
          intro index bound
          by_contra far
          exact near ⟨index, bound, by omega⟩
        have short (index : Nat) : (bin font.pairs index).length < 256 :=
          (counts index (by simp [bin, bucket, offsetTableMaxSize])).trans (by decide)
        rw [foldlM_addDirectoryItem_fits (by decide) (fun index _ => short index) offsets] at failed
        cases failed
      · cases failed
  · rw [if_neg fun all => header ⟨all.1, all.2.1, all.2.2.1⟩] at run
    exact Or.inr ⟨(Except.error.inj run).symm, Or.inl header⟩

/-- Exactly the fonts without full buckets and values out of range are written. -/
theorem fontWrite_succeeds_iff {font : Font}
    (nonempty : ∀ entry ∈ font.glyphs, entry.2.codepoints ≠ []) :
    (∃ bytes, fontWrite font = .ok bytes) ↔ ¬ font.FullBucket ∧ ¬ font.OutOfRange := by
  constructor
  · rintro ⟨bytes, run⟩
    have written := fontWrite_ok run
    constructor
    · rintro ⟨index, full⟩
      have short := written.count index
      rw [length_bin_eq Font.pairs_codepoints] at short
      omega
    · rintro (header | ⟨pair, member, tooLarge⟩ | ⟨index, bound, tooLong⟩)
      · rw [fontWrite_eq, packHeader_eq, if_neg fun all => header ⟨all.1, all.2.1, all.2.2.1⟩] at run
        cases run
      · exact tooLarge (written.fits.item pair member)
      · exact absurd (written.fits.offset index bound) (by omega)
  · rintro ⟨room, inRange⟩
    cases run : fontWrite font with
    | ok bytes => exact ⟨bytes, rfl⟩
    | error error =>
        rcases fontWrite_error nonempty run with ⟨-, full⟩ | ⟨-, tooLarge⟩
        · exact absurd full room
        · exact absurd tooLarge inRange

end PfoMerge

end Elbbep
