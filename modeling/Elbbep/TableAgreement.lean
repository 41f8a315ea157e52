import Elbbep.CodepointRequests
import Elbbep.GeneratedTables

/-!
# The generator and the runtime agree

An encoder in Python and a linear-scan decoder in C share an unpadded record
format.  Whatever forms table the generator is given, either it raises, or the
lookups of the runtime recover the assignment of codepoints to glyphs that was
made while packing, the range macro recognizes exactly the codepoints handed
out, and the inverse map handed to the font generator has the right glyph for
each of them.
-/

namespace Elbbep

open PythonStruct

/-! ## The assignment of codepoints -/

theorem lookup_of_mem {items : List (Nat × Nat)} (nodup : (items.map Prod.fst).Nodup)
    {glyph codept : Nat} (member : (glyph, codept) ∈ items) :
    items.lookup glyph = some codept := by
  induction items with
  | nil => simp at member
  | cons item items ih =>
      obtain ⟨key, value⟩ := item
      rw [List.map_cons, List.nodup_cons] at nodup
      rw [List.lookup_cons]
      rcases List.mem_cons.mp member with here | later
      · obtain ⟨rfl, rfl⟩ := Prod.mk.inj here
        simp
      · have different : glyph ≠ key := by
          rintro rfl
          exact nodup.1 (List.mem_map.mpr ⟨_, later, rfl⟩)
        rw [beq_false_of_ne different]
        exact ih nodup.2 later

namespace PackedTable

variable {forms : FormsTable} {packed : PackState}
  {pairs : List (CharacterForms × ShaperLUTEntry)}
  (table : PackedTable forms packed pairs)

include table

theorem glyph_eq_of_codept {first second codept : Nat}
    (firstFound : packed.selectedGlyphs.lookup first = some codept)
    (secondFound : packed.selectedGlyphs.lookup second = some codept) : first = second := by
  have nodup := table.codepts_nodup.of_append_left
  have same := List.inj_on_of_nodup_map nodup (PackState.mem_of_lookup firstFound)
    (PackState.mem_of_lookup secondFound) rfl
  exact congrArg Prod.fst same

theorem codept_scratch {glyph codept : Nat}
    (found : packed.selectedGlyphs.lookup glyph = some codept) : codept ∈ scratchCodepoints :=
  table.done.allocated.dirtied_scratch (table.done.allocated.lookup_dirtied found)

theorem codept_ne_replacement {glyph codept : Nat} {record : LigatureRecord}
    (found : packed.selectedGlyphs.lookup glyph = some codept)
    (member : record ∈ ligaturesOf pairs) : record.replacement ≠ codept := by
  rintro rfl
  apply List.disjoint_of_nodup_append table.codepts_nodup
  · exact List.mem_map.mpr ⟨_, PackState.mem_of_lookup found, rfl⟩
  · exact List.mem_map_of_mem member

theorem mem_dirtied_iff {cp : Nat} :
    cp ∈ packed.dirtiedCodepts ↔
      (∃ glyph, packed.selectedGlyphs.lookup glyph = some cp) ∨
        ∃ record ∈ ligaturesOf pairs, record.replacement = cp := by
  rw [table.done.allocated.dirtied.mem_iff, List.mem_append, List.mem_map, List.mem_map]
  apply or_congr _ Iff.rfl
  constructor
  · rintro ⟨⟨glyph, codept⟩, member, rfl⟩
    exact ⟨glyph, lookup_of_mem table.done.allocated.glyphs_nodup member⟩
  · rintro ⟨glyph, found⟩
    exact ⟨_, PackState.mem_of_lookup found, rfl⟩

/-- The selected glyphs are those of the forms table. -/
theorem selected_iff {glyph : Nat} :
    (∃ codept, packed.selectedGlyphs.lookup glyph = some codept) ↔
      ∃ item ∈ forms.items, glyph ∈ item.2 := by
  constructor
  · rintro ⟨codept, found⟩
    obtain ⟨pair, member, inForms⟩ := table.done.origin glyph codept found
    exact ⟨pair.1, table.item_mem member, inForms⟩
  · rintro ⟨item, member, inForms⟩
    obtain ⟨entry, inPairs⟩ := table.exists_pair member
    obtain ⟨c0, c1, c2, c3, lookups, -⟩ := table.done.forms _ inPairs
    obtain ⟨i, bound, rfl⟩ := List.mem_iff_getElem.mp inForms
    have lengths : item.2.length = [c0, c1, c2, c3].length := lookups.length_eq
    exact ⟨_, lookups.get bound (by omega)⟩

end PackedTable

/-! ## The map handed to the font generator -/

/-- Codepoints outside the recycled blocks never displace a selected glyph. -/
theorem supplementSelectedGlyphs_keeps (shapeAlone : Char → Nat)
    {selected current : List (Nat × Nat)} {alphabet : List Char}
    (other : ∀ ch ∈ alphabet, ch.toNat ∉ scratchCodepoints)
    (fresh : ∀ ch ∈ alphabet, shapeAlone ch ∉ selected.map Prod.fst)
    (kept : ∀ item ∈ selected, item ∈ current)
    (only : ∀ item ∈ current, item.2 ∈ scratchCodepoints → item ∈ selected) :
    (∀ item ∈ selected, item ∈ supplementSelectedGlyphs shapeAlone current alphabet) ∧
      ∀ item ∈ supplementSelectedGlyphs shapeAlone current alphabet,
        item.2 ∈ scratchCodepoints → item ∈ selected := by
  induction alphabet generalizing current with
  | nil => exact ⟨kept, only⟩
  | cons ch alphabet ih =>
      have notScratch := other ch (by simp)
      have notSelected := fresh ch (by simp)
      rw [supplementSelectedGlyphs, List.foldl_cons]
      apply ih (fun c member => other c (by simp [member]))
        (fun c member => fresh c (by simp [member]))
      · intro item member
        have different : item.1 ≠ shapeAlone ch := by
          intro same
          exact notSelected (same ▸ List.mem_map_of_mem member)
        unfold insertGlyph
        split
        · exact List.mem_map.mpr ⟨item, kept item member, by simp [different]⟩
        · exact List.mem_append_left _ (kept item member)
      · intro item member scratch
        unfold insertGlyph at member
        split at member
        · obtain ⟨old, inCurrent, eq⟩ := List.mem_map.mp member
          split at eq
          · subst eq
            exact absurd scratch notScratch
          · subst eq
            exact only old inCurrent scratch
        · rcases List.mem_append.mp member with inCurrent | here
          · exact only item inCurrent scratch
          · rw [List.mem_singleton.mp here] at scratch
            exact absurd scratch notScratch

theorem supplementalAlphabet_not_scratch :
    ∀ ch ∈ supplementalAlphabet, ch.toNat ∉ scratchCodepoints := by
  have bound : ∀ ch ∈ supplementalAlphabet, ch.toNat < 0x700 := by decide
  intro ch member scratch
  have := bound ch member
  rw [mem_scratchCodepoints] at scratch
  omega

/-! ## Agreement -/

/-- What encoder and decoder have to agree on.  `codeptOf` is the true codepoint
of a key: the letter itself, or the codepoint assigned to the ligature. -/
structure TablesAgree (forms : FormsTable) (packed : PackState) (codeptOf : List Char → Nat) :
    Prop where
  letter : ∀ c, [c] ∈ forms.items.map Prod.fst → codeptOf [c] = c.toNat
  ligatureTable : ligatureLutWords packed.ligData =
    ((sortedForms forms.items).filterMap fun item =>
      ligatureRecord item.1 (codeptOf item.1)).flatMap LigatureRecord.words
  /-- The record of each key is found, and its four sums are the codepoints
  assigned to the key's glyphs. -/
  found : ∀ ranges, ∀ item ∈ forms.items, ∃ entry,
    (writeLut packed.lutData packed.ligData ranges).findLutEntryByCodept (codeptOf item.1) =
      some entry ∧ entry.trueCodept = codeptOf item.1 ∧
    ∀ form : LetterForm, ∃ glyph codept, item.2[form.index]? = some glyph ∧
      packed.selectedGlyphs.lookup glyph = some codept ∧ entry.formCodept form = (codept : Int)
  onlyKeys : ∀ ranges codept,
    ((writeLut packed.lutData packed.ligData ranges).findLutEntryByCodept codept).isSome →
      ∃ item ∈ forms.items, codept = codeptOf item.1
  keysApart : ∀ first ∈ forms.items, ∀ second ∈ forms.items,
    codeptOf first.1 = codeptOf second.1 → first = second
  assignedGlyphs : ∀ glyph, (∃ codept, packed.selectedGlyphs.lookup glyph = some codept) ↔
    ∃ item ∈ forms.items, glyph ∈ item.2
  injective : ∀ first second codept, packed.selectedGlyphs.lookup first = some codept →
    packed.selectedGlyphs.lookup second = some codept → first = second
  scratch : ∀ glyph codept, packed.selectedGlyphs.lookup glyph = some codept →
    codept ∈ scratchCodepoints
  notLetter : ∀ glyph codept, packed.selectedGlyphs.lookup glyph = some codept →
    ∀ item ∈ forms.items, ∀ c ∈ item.1, c.toNat ≠ codept
  notLigature : ∀ glyph codept, packed.selectedGlyphs.lookup glyph = some codept →
    ∀ a b, [a, b] ∈ forms.items.map Prod.fst → codeptOf [a, b] ≠ codept
  /-- The macro built from `contiguous_ranges` accepts the codepoints handed out
  and nothing else; an empty table has no macro. -/
  macroRange : forms.items ≠ [] → ∃ ranges, contiguousRanges packed.dirtiedCodepts = .ok ranges ∧
    ∀ cp, (writeLut packed.lutData packed.ligData ranges).arabicShaperRange cp = true ↔
      (∃ glyph, packed.selectedGlyphs.lookup glyph = some cp) ∨
        ∃ a b, [a, b] ∈ forms.items.map Prod.fst ∧ codeptOf [a, b] = cp
  /-- Each codepoint the shaper can emit keeps its glyph in the inverse map, as
  long as no supplemental character shares a glyph with the shaped forms. -/
  inverseMap : ∀ shapeAlone : Char → Nat,
    (∀ ch ∈ supplementalAlphabet, packed.selectedGlyphs.lookup (shapeAlone ch) = none) →
    ∀ glyph codept, packed.selectedGlyphs.lookup glyph = some codept →
      selectedCodepts
        (supplementSelectedGlyphs shapeAlone packed.selectedGlyphs supplementalAlphabet)
        codept = some glyph

/-- The true codepoint packed for a key. -/
def packedCodept (pairs : List (CharacterForms × ShaperLUTEntry)) (ch : List Char) : Nat :=
  match pairs.find? fun pair => pair.1.1 == ch with
  | some pair => pair.2.trueCodept
  | none => 0

namespace PackedTable

variable {forms : FormsTable} {packed : PackState}
  {pairs : List (CharacterForms × ShaperLUTEntry)}
  (table : PackedTable forms packed pairs)

include table

theorem packedCodept_eq {pair : CharacterForms × ShaperLUTEntry} (member : pair ∈ pairs) :
    packedCodept pairs pair.1.1 = pair.2.trueCodept := by
  have found : (pairs.find? fun other => other.1.1 == pair.1.1) = some pair := by
    apply find?_eq_some_of_unique member (by simp)
    intro other inPairs key
    exact table.pair_eq inPairs member (by simpa using key)
  rw [packedCodept, found]

theorem exists_pair_of_key {ch : List Char} (member : ch ∈ forms.items.map Prod.fst) :
    ∃ pair ∈ pairs, pair.1.1 = ch := by
  obtain ⟨item, inItems, rfl⟩ := List.mem_map.mp member
  obtain ⟨entry, inPairs⟩ := table.exists_pair inItems
  exact ⟨_, inPairs, rfl⟩

theorem mem_ligaturesOf_of_key {a b : Char} (member : [a, b] ∈ forms.items.map Prod.fst) :
    (⟨a.toNat, b.toNat, packedCodept pairs [a, b]⟩ : LigatureRecord) ∈ ligaturesOf pairs := by
  obtain ⟨pair, inPairs, key⟩ := table.exists_pair_of_key member
  refine List.mem_filterMap.mpr ⟨pair, inPairs, ?_⟩
  rw [← key, table.packedCodept_eq inPairs, key]
  rfl

theorem ligaturesOf_eq :
    ligaturesOf pairs = (sortedForms forms.items).filterMap fun item =>
      ligatureRecord item.1 (packedCodept pairs item.1) := by
  rw [← table.keys, List.filterMap_map]
  apply List.filterMap_congr
  intro pair member
  simp [table.packedCodept_eq member]

theorem dirtied_ne_nil (nonempty : forms.items ≠ []) : packed.dirtiedCodepts ≠ [] := by
  obtain ⟨item, member⟩ := List.exists_mem_of_ne_nil _ nonempty
  have length := forms.forms_length item member
  obtain ⟨glyph, inForms⟩ := List.exists_mem_of_length_pos (l := item.2) (by omega)
  obtain ⟨codept, found⟩ := table.selected_iff.mpr ⟨item, member, inForms⟩
  exact List.ne_nil_of_mem (table.done.allocated.lookup_dirtied found)

theorem selectedCodepts_supplement {shapeAlone : Char → Nat}
    (fresh : ∀ ch ∈ supplementalAlphabet,
      packed.selectedGlyphs.lookup (shapeAlone ch) = none)
    {glyph codept : Nat} (found : packed.selectedGlyphs.lookup glyph = some codept) :
    selectedCodepts
      (supplementSelectedGlyphs shapeAlone packed.selectedGlyphs supplementalAlphabet)
      codept = some glyph := by
  have absent : ∀ ch ∈ supplementalAlphabet,
      shapeAlone ch ∉ packed.selectedGlyphs.map Prod.fst := by
    intro ch member inKeys
    obtain ⟨⟨key, value⟩, inItems, eq⟩ := List.mem_map.mp inKeys
    dsimp only at eq
    subst eq
    have := lookup_of_mem table.done.allocated.glyphs_nodup inItems
    rw [fresh ch member] at this
    cases this
  obtain ⟨kept, only⟩ := supplementSelectedGlyphs_keeps shapeAlone
    supplementalAlphabet_not_scratch absent (fun _ => id) (fun _ member _ => member)
  have present := kept _ (PackState.mem_of_lookup found)
  rw [selectedCodepts, find?_eq_some_of_unique (List.mem_reverse.mpr present) (by simp),
    Option.map_some]
  intro item inMap same
  have codeptEq : item.2 = codept := by simpa using same
  have selected := only item (List.mem_reverse.mp inMap) (codeptEq ▸ table.codept_scratch found)
  have itemFound := lookup_of_mem table.done.allocated.glyphs_nodup selected
  rw [codeptEq] at itemFound
  exact Prod.ext (table.glyph_eq_of_codept itemFound found) codeptEq

/-- The macro's intervals hold the codepoints of glyphs and of ligatures. -/
theorem arabicShaperRange_iff {ranges : List (Nat × Nat)}
    (covers : ∀ cp, covered ranges cp = true ↔ cp ∈ packed.dirtiedCodepts) (cp : Nat) :
    (writeLut packed.lutData packed.ligData ranges).arabicShaperRange cp = true ↔
      (∃ glyph, packed.selectedGlyphs.lookup glyph = some cp) ∨
        ∃ a b, [a, b] ∈ forms.items.map Prod.fst ∧ packedCodept pairs [a, b] = cp := by
  rw [arabicShaperRange_writeLut, covers, table.mem_dirtied_iff]
  apply or_congr Iff.rfl
  constructor
  · rintro ⟨record, member, rfl⟩
    obtain ⟨pair, inPairs, a, b, key, rfl⟩ := mem_ligaturesOf member
    refine ⟨a, b, ?_, ?_⟩
    · exact key ▸ List.mem_map_of_mem (table.item_mem inPairs)
    · rw [← key, table.packedCodept_eq inPairs]
  · rintro ⟨a, b, member, rfl⟩
    exact ⟨_, table.mem_ligaturesOf_of_key member, rfl⟩

theorem tablesAgree : TablesAgree forms packed (packedCodept pairs) where
  letter c member := by
    obtain ⟨pair, inPairs, key⟩ := table.exists_pair_of_key member
    rw [← key, table.packedCodept_eq inPairs]
    exact table.done.letter pair inPairs c key
  ligatureTable := by
    rw [← table.ligaturesOf_eq]
    simpa [ligatureLutWords] using table.done.lig []
  found ranges item member := by
    have runtime : RuntimeTables forms packed pairs
        (writeLut packed.lutData packed.ligData ranges) := ⟨table, rfl, rfl⟩
    obtain ⟨entry, inPairs⟩ := table.exists_pair member
    have codeptEq := table.packedCodept_eq inPairs
    dsimp only at codeptEq
    refine ⟨entry, ?_, codeptEq.symm, (table.done.forms _ inPairs).formCodept_eq⟩
    rw [codeptEq]
    exact runtime.findLutEntryByCodept_pair inPairs
  onlyKeys ranges codept present := by
    have runtime : RuntimeTables forms packed pairs
        (writeLut packed.lutData packed.ligData ranges) := ⟨table, rfl, rfl⟩
    obtain ⟨entry, found⟩ := Option.isSome_iff_exists.mp present
    obtain ⟨pair, inPairs, entryEq, codeptEq⟩ := runtime.exists_pair_of_find found
    refine ⟨pair.1, table.item_mem inPairs, ?_⟩
    rw [table.packedCodept_eq inPairs, entryEq, codeptEq]
  keysApart first firstMem second secondMem same := by
    obtain ⟨firstEntry, firstPair⟩ := table.exists_pair firstMem
    obtain ⟨secondEntry, secondPair⟩ := table.exists_pair secondMem
    have firstEq := table.packedCodept_eq firstPair
    have secondEq := table.packedCodept_eq secondPair
    dsimp only at firstEq secondEq
    exact congrArg Prod.fst (table.pair_eq_of_trueCodept firstPair secondPair
      (firstEq.symm.trans (same.trans secondEq)))
  assignedGlyphs _ := table.selected_iff
  injective _ _ _ := table.glyph_eq_of_codept
  scratch _ _ := table.codept_scratch
  notLetter := by
    rintro glyph codept found item member c inKey rfl
    exact (forms.letters item member c inKey).not_scratch (table.codept_scratch found)
  notLigature _ _ found _ _ member :=
    table.codept_ne_replacement found (table.mem_ligaturesOf_of_key member)
  macroRange nonempty := by
    obtain ⟨ranges, group, covers⟩ := contiguousRanges_ok (table.dirtied_ne_nil nonempty)
    exact ⟨ranges, group, table.arabicShaperRange_iff covers⟩
  inverseMap _ fresh _ _ found := table.selectedCodepts_supplement fresh found

end PackedTable

/-- For every forms table `pack_lut` raises for want of codepoints, for a form too
far from the first one or for a letter without a Unicode name, or emits tables on
which the generator and the runtime agree. -/
theorem packLut_tables_agree (unicodedataName : Char → Option String) (forms : FormsTable) :
    match packLut unicodedataName forms.items with
    | .error error =>
        (error = .stopIteration ∧ scratchCodepoints.length <
          (codepointRequests (sortedForms forms.items)).length) ∨
        (error = .structError ∧
          ∃ item ∈ forms.items, FarForm (codepointRequests (sortedForms forms.items)) item) ∨
        (error = .valueError ∧
          ∃ c, [c] ∈ forms.items.map Prod.fst ∧ unicodedataName c = none)
    | .ok packed => ∃ codeptOf, TablesAgree forms packed codeptOf := by
  have sorted := sortedForms_perm forms.items
  cases run : packLut unicodedataName forms.items with
  | error error =>
      have small : ∀ item ∈ sortedForms forms.items, ∀ c ∈ item.1, c.toNat < 65536 := by
        intro item member c inKey
        have upper := (forms.letters item (sorted.mem_iff.mp member) c inKey).upper
        omega
      obtain ⟨item, inSorted, cause⟩ := PackState.packCharacters_error PackState.packed_start
        PackState.served_start
        (fun item member => forms.key_length item (sorted.mem_iff.mp member))
        (fun item member => forms.forms_length item (sorted.mem_iff.mp member)) small
        ((sorted.map Prod.fst).nodup_iff.mpr forms.keys_nodup) (fun _ _ => List.not_mem_nil) run
      have member := sorted.mem_iff.mp inSorted
      rcases cause with ⟨stop, full⟩ | ⟨isStruct, far⟩ | ⟨name, c, key, missing⟩
      · exact Or.inl ⟨stop, full⟩
      · exact Or.inr (Or.inl ⟨isStruct, item, member, far⟩)
      · exact Or.inr (Or.inr ⟨name, c, key ▸ List.mem_map_of_mem member, missing⟩)
  | ok packed =>
      obtain ⟨pairs, keys, done⟩ := packLut_ok run
      have table : PackedTable forms packed pairs := ⟨keys, done⟩
      exact ⟨packedCodept pairs, table.tablesAgree⟩

/-- Lam, alef and their ligature are packed. -/
theorem packLut_tables_agree_lamAlef : ∃ packed codeptOf,
    packLut (fun _ => some "") lamAlefForms.items = .ok packed ∧
      TablesAgree lamAlefForms packed codeptOf := by
  have agree := packLut_tables_agree (fun _ => some "") lamAlefForms
  have succeeds : (packLut (fun _ => some "") lamAlefForms.items).isOk := by decide +kernel
  cases run : packLut (fun _ => some "") lamAlefForms.items with
  | error error =>
      rw [run] at succeeds
      cases succeeds
  | ok packed =>
      rw [run] at agree
      obtain ⟨codeptOf, agree⟩ := agree
      exact ⟨packed, codeptOf, rfl, agree⟩

end Elbbep
