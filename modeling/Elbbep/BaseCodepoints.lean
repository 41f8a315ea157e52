import Elbbep.UnshapedText

/-!
# Which letter a shaped codepoint stands for

`pack_lut` gives one codepoint to equal glyphs, whichever letters they belong to,
and `find_base_codept_by_shaped` answers with the first letter that has the
codepoint among its forms.  So every form leads back to its own letter exactly when
no glyph serves two letters.
-/

namespace Elbbep

open PythonStruct

/-- A forms dictionary as `pack_lut` takes it: letters and two-letter ligatures with four
glyphs each; letters are not recycled codepoints. -/
structure KeyedForms (items : List CharacterForms) : Prop where
  keys_nodup : (items.map Prod.fst).Nodup
  key_length : ∀ item ∈ items, item.1.length = 1 ∨ item.1.length = 2
  forms_length : ∀ item ∈ items, item.2.length = 4
  letters_outside : ∀ item ∈ items, ∀ c, item.1 = [c] → c.toNat ∉ scratchCodepoints

/-- For every key, `find_base_codept_by_shaped` takes the codepoints that are emitted for its
four forms back to the key's true codepoint.  Keys are packed in sorted order. -/
def FormsIdentifyKeys (items : List CharacterForms) (tables : ShaperTables) : Prop :=
  ∀ pair ∈ (sortedForms items).zip tables.entries, ∀ form : LetterForm,
    tables.findBaseCodeptByShaped (pair.2.formCodept form).toNat = pair.2.trueCodept

/-- No glyph serves two different keys. -/
def Unshared (items : List CharacterForms) : Prop :=
  ∀ first ∈ items, ∀ second ∈ items, ∀ glyph ∈ first.2, glyph ∈ second.2 → first = second

instance (items : List CharacterForms) : Decidable (Unshared items) :=
  inferInstanceAs (Decidable (∀ first ∈ items, ∀ second ∈ items, _))

section Packed

variable {items : List CharacterForms} {packed : PackState}
  {pairs : List (CharacterForms × ShaperLUTEntry)} {tables : ShaperTables}

theorem KeyedForms.exists_packed (keyed : KeyedForms items)
    {unicodedataName : Char → Option String} (run : packLut unicodedataName items = .ok packed) :
    ∃ pairs, pairs.map Prod.fst = sortedForms items ∧ packed.Packed pairs := by
  have sorted := sortedForms_perm items
  obtain ⟨pairs, keys, done⟩ := PackState.packCharacters_ok PackState.packed_start
    (fun item member => keyed.key_length item (sorted.mem_iff.mp member))
    (fun item member => keyed.forms_length item (sorted.mem_iff.mp member)) run
  exact ⟨pairs, keys, done⟩

/-- Different keys have different true codepoints. -/
theorem KeyedForms.item_eq_of_trueCodept (keyed : KeyedForms items) (done : packed.Packed pairs)
    (keys : pairs.map Prod.fst = sortedForms items)
    {first second : CharacterForms × ShaperLUTEntry} (firstMem : first ∈ pairs)
    (secondMem : second ∈ pairs) (same : first.2.trueCodept = second.2.trueCodept) :
    first.1 = second.1 := by
  have inItems {pair : CharacterForms × ShaperLUTEntry} (member : pair ∈ pairs) :
      pair.1 ∈ items := by
    rw [← (sortedForms_perm items).mem_iff, ← keys]
    exact List.mem_map_of_mem member
  -- A letter has its own codepoint, a ligature one from the recycled blocks.
  have kinds {pair : CharacterForms × ShaperLUTEntry} (member : pair ∈ pairs) :
      (∃ c, pair.1.1 = [c] ∧ pair.2.trueCodept = c.toNat ∧ c.toNat ∉ scratchCodepoints) ∨
        (ligatureRecord pair.1.1 pair.2.trueCodept).map LigatureRecord.replacement =
            some pair.2.trueCodept ∧ pair.2.trueCodept ∈ scratchCodepoints := by
    rcases keyed.key_length _ (inItems member) with one | two
    · obtain ⟨c, key⟩ := List.length_eq_one_iff.mp one
      exact Or.inl ⟨c, key, done.letter pair member c key,
        keyed.letters_outside _ (inItems member) c key⟩
    · obtain ⟨a, b, key⟩ := List.length_eq_two.mp two
      have record : ligatureRecord pair.1.1 pair.2.trueCodept =
          some ⟨a.toNat, b.toNat, pair.2.trueCodept⟩ := by rw [key]; rfl
      refine Or.inr ⟨by rw [record]; rfl, ?_⟩
      apply done.allocated.dirtied_scratch
      apply done.allocated.dirtied.mem_iff.mpr
      apply List.mem_append_right
      have inLigatures : ⟨a.toNat, b.toNat, pair.2.trueCodept⟩ ∈ ligaturesOf pairs :=
        List.mem_filterMap.mpr ⟨pair, member, record⟩
      exact List.mem_map_of_mem inLigatures
  rcases kinds firstMem with ⟨c, firstKey, firstEq, firstOutside⟩ | ⟨firstImage, firstScratch⟩ <;>
    rcases kinds secondMem with
      ⟨d, secondKey, secondEq, secondOutside⟩ | ⟨secondImage, secondScratch⟩
  · have keyEq : first.1.1 = second.1.1 := by
      rw [firstKey, secondKey, Char.toNat_inj.mp (firstEq.symm.trans (same.trans secondEq))]
    exact List.inj_on_of_nodup_map keyed.keys_nodup (inItems firstMem) (inItems secondMem) keyEq
  · rw [← same, firstEq] at secondScratch
    exact absurd secondScratch firstOutside
  · rw [same, secondEq] at firstScratch
    exact absurd firstScratch secondOutside
  · have nodup := (done.allocated.dirtied.nodup_iff.mp done.allocated.dirtied_nodup).of_append_right
    rw [ligaturesOf, List.map_filterMap] at nodup
    rw [same] at firstImage
    rw [eq_of_nodup_filterMap nodup firstMem secondMem (by rw [same]; exact firstImage) secondImage]

theorem entries_of_packed (done : packed.Packed pairs)
    (lut : tables.arabicShaperLut = packed.lutData) : tables.entries = pairs.map Prod.snd := by
  have decoded := done.lut []
  rw [ShaperTables.entries, lut]
  simpa [shaperLutEntries] using decoded

theorem zip_of_packed (keys : pairs.map Prod.fst = sortedForms items)
    (entries : tables.entries = pairs.map Prod.snd) :
    (sortedForms items).zip tables.entries = pairs := by
  rw [← keys, entries]
  exact (List.zip_of_prod rfl rfl).symm

/-- The search for a base codepoint stops at some entry with such a form. -/
theorem findBaseCodeptByShaped_of_form (entries : tables.entries = pairs.map Prod.snd)
    {pair : CharacterForms × ShaperLUTEntry} (member : pair ∈ pairs) {form : LetterForm}
    {codept : Nat} (eq : pair.2.formCodept form = codept) :
    ∃ other ∈ pairs, (∃ form, other.2.formCodept form = codept) ∧
      tables.findBaseCodeptByShaped codept = other.2.trueCodept := by
  rcases findBaseCodeptByShaped_cases entries codept with ⟨-, none⟩ | found
  · exact absurd eq (none pair member form)
  · exact found

/-- Every glyph of a key is the glyph of one of its forms. -/
theorem EntryForms.exists_form {selectedGlyphs : List (Nat × Nat)} {chForms : List Nat}
    {entry : ShaperLUTEntry} (entryForms : EntryForms selectedGlyphs chForms entry) {glyph : Nat}
    (member : glyph ∈ chForms) :
    ∃ form codept, selectedGlyphs.lookup glyph = some codept ∧
      entry.formCodept form = (codept : Int) := by
  have four : chForms.length = 4 := by
    obtain ⟨c0, c1, c2, c3, lookups, -⟩ := entryForms
    exact lookups.length_eq
  obtain ⟨g0, g1, g2, g3, rfl⟩ : ∃ g0 g1 g2 g3, chForms = [g0, g1, g2, g3] := by
    rcases chForms with _ | ⟨g0, _ | ⟨g1, _ | ⟨g2, _ | ⟨g3, _ | ⟨g4, more⟩⟩⟩⟩⟩ <;> simp_all
  have at_ (form : LetterForm) (here : [g0, g1, g2, g3][form.index]? = some glyph) :
      ∃ form codept, selectedGlyphs.lookup glyph = some codept ∧
        entry.formCodept form = (codept : Int) := by
    obtain ⟨other, codept, there, found, eq⟩ := entryForms.formCodept_eq form
    obtain rfl := Option.some.inj (here.symm.trans there)
    exact ⟨form, codept, found, eq⟩
  simp only [List.mem_cons, List.not_mem_nil, or_false] at member
  rcases member with rfl | rfl | rfl | rfl
  · exact at_ .isolated rfl
  · exact at_ .initial rfl
  · exact at_ .medial rfl
  · exact at_ .final rfl

theorem PackState.Allocated.glyph_eq {reserved : List Nat} (allocated : packed.Allocated reserved)
    {first second codept : Nat} (firstFound : packed.selectedGlyphs.lookup first = some codept)
    (secondFound : packed.selectedGlyphs.lookup second = some codept) : first = second := by
  have nodup := (allocated.dirtied.nodup_iff.mp allocated.dirtied_nodup).of_append_left
  have same := List.inj_on_of_nodup_map nodup (PackState.mem_of_lookup firstFound)
    (PackState.mem_of_lookup secondFound) rfl
  exact congrArg Prod.fst same

end Packed

/-- When `pack_lut` succeeds, every shaped codepoint identifies its key exactly when no glyph
serves two keys. -/
theorem formsIdentifyKeys_iff {items : List CharacterForms} (keyed : KeyedForms items)
    {unicodedataName : Char → Option String} {packed : PackState}
    (run : packLut unicodedataName items = .ok packed) {tables : ShaperTables}
    (lut : tables.arabicShaperLut = packed.lutData) :
    FormsIdentifyKeys items tables ↔ Unshared items := by
  obtain ⟨pairs, keys, done⟩ := keyed.exists_packed run
  have entries := entries_of_packed done lut
  have sorted := sortedForms_perm items
  rw [FormsIdentifyKeys, zip_of_packed keys entries]
  constructor
  · intro identify first firstMem second secondMem glyph inFirst inSecond
    have pairOf {item : CharacterForms} (member : item ∈ items) :
        ∃ entry, (item, entry) ∈ pairs := by
      rw [← sorted.mem_iff, ← keys] at member
      obtain ⟨⟨other, entry⟩, inPairs, rfl⟩ := List.mem_map.mp member
      exact ⟨entry, inPairs⟩
    obtain ⟨firstEntry, firstPair⟩ := pairOf firstMem
    obtain ⟨secondEntry, secondPair⟩ := pairOf secondMem
    obtain ⟨firstForm, codept, firstFound, firstEq⟩ :=
      (done.forms _ firstPair).exists_form inFirst
    obtain ⟨secondForm, codept', secondFound, secondEq⟩ :=
      (done.forms _ secondPair).exists_form inSecond
    obtain rfl := Option.some.inj (firstFound.symm.trans secondFound)
    have firstBase := identify _ firstPair firstForm
    have secondBase := identify _ secondPair secondForm
    rw [firstEq, Int.toNat_natCast] at firstBase
    rw [secondEq, Int.toNat_natCast] at secondBase
    exact keyed.item_eq_of_trueCodept done keys firstPair secondPair
      (firstBase.symm.trans secondBase)
  · intro unshared pair member form
    obtain ⟨glyph, codept, inForms, found, eq⟩ := (done.forms pair member).formCodept_eq form
    obtain ⟨other, otherMem, ⟨otherForm, otherEq⟩, base⟩ :=
      findBaseCodeptByShaped_of_form entries member eq
    obtain ⟨glyph', codept', inOther, otherFound, otherEq'⟩ :=
      (done.forms other otherMem).formCodept_eq otherForm
    obtain rfl : codept = codept' := by exact_mod_cast otherEq.symm.trans otherEq'
    obtain rfl := done.allocated.glyph_eq found otherFound
    have inItems {pair : CharacterForms × ShaperLUTEntry} (member : pair ∈ pairs) :
        pair.1 ∈ items := by
      rw [← sorted.mem_iff, ← keys]
      exact List.mem_map_of_mem member
    have itemEq : other.1 = pair.1 := unshared _ (inItems otherMem) _ (inItems member) glyph
      (List.mem_of_getElem? inOther) (List.mem_of_getElem? inForms)
    have nodup : (pairs.map Prod.fst).Nodup := by
      rw [keys]
      exact sorted.nodup_iff.mpr (.of_map Prod.fst keyed.keys_nodup)
    obtain rfl := List.inj_on_of_nodup_map nodup otherMem member itemEq
    rw [eq, Int.toNat_natCast, base]

/-- Generated tables come from a run of `pack_lut`. -/
theorem exists_packLut {unicodedataName : Char → Option String} {items : List CharacterForms}
    {tables : ShaperTables} (run : generateTables unicodedataName items = .ok tables) :
    ∃ packed, packLut unicodedataName items = .ok packed ∧
      tables.arabicShaperLut = packed.lutData := by
  obtain ⟨packed, packedRun, run⟩ := bind_ok run
  obtain ⟨ranges, -, run⟩ := bind_ok run
  cases run
  exact ⟨packed, packedRun, rfl⟩

/-- Lam, alef, their ligature and kashida share no glyphs. -/
theorem formsIdentifyKeys_lamAlef : FormsIdentifyKeys lamAlefForms.items lamAlefTables := by
  have keyed : KeyedForms lamAlefForms.items :=
    ⟨by decide, by decide, by decide, fun item member c key =>
      (lamAlefForms.letters item member c (by simp [key])).not_scratch⟩
  obtain ⟨packed, run, lut⟩ := exists_packLut generateTables_lamAlefForms
  exact (formsIdentifyKeys_iff keyed run lut).mpr (by decide)

/-- Kaf and keheh, which look the same at the beginning and in the middle of a word. -/
def kafKehehItems : List CharacterForms :=
  [(['ك'], [1, 2, 3, 4]), (['ک'], [5, 2, 3, 6])]

/-- What `pack_lut` makes of kaf and keheh: their initial and medial codepoints are the same. -/
def kafKehehTables : ShaperTables where
  arabicShaperLut :=
    [0x43, 0x06, 0x00, 0x07, 1, 2, 3, 0xA9, 0x06, 0x04, 0x07, 0xFD, 0xFE, 1]
  arabicLigatureLut := []
  arabicShaperRanges := [(0x700, 0x706)]

/-- The initial form of keheh leads back to kaf. -/
theorem keheh_becomes_kaf :
    generateTables (fun _ => some "") kafKehehItems = .ok kafKehehTables ∧
      (kafKehehTables.findLutEntryByCodept 'ک'.toNat).map ShaperLUTEntry.trueCodept =
        some 'ک'.toNat ∧
      (kafKehehTables.findLutEntryByCodept 'ک'.toNat).map (fun entry =>
          kafKehehTables.findBaseCodeptByShaped (entry.formCodept .initial).toNat) =
        some 'ك'.toNat ∧
      ¬ FormsIdentifyKeys kafKehehItems kafKehehTables := by
  have generated :
      generateTables (fun _ => some "") kafKehehItems = .ok kafKehehTables := by decide
  refine ⟨generated, by decide, by decide, ?_⟩
  intro identify
  have sorted : sortedForms kafKehehItems = kafKehehItems := by decide
  have keheh := identify ((['ک'], [5, 2, 3, 6]), ⟨0x6A9, 0x704, -3, -2, 1⟩)
    (by rw [sorted]; decide) .initial
  revert keheh
  decide

end Elbbep
