import Elbbep.PackLutSemantics

/-!
# Forms tables and the tables generated from them

A forms table assigns four glyphs to each of its letters and ligatures.  The
table generator turns it into the arrays of the runtime; this file states what
the runtime's lookups find there, which is all that the shaper relies on.
-/

namespace Elbbep

open PythonStruct

/-- A letter the shaper can handle: two bytes long in UTF-8, and outside the
recycled blocks.  The alphabets of `fonts/text_shaper.py` are made of these. -/
structure TableLetter (c : Char) : Prop where
  lower : 0x80 ≤ c.toNat
  upper : c.toNat < 0x800
  not_scratch : c.toNat ∉ scratchCodepoints

instance decidableTableLetter (c : Char) : Decidable (TableLetter c) :=
  decidable_of_iff (0x80 ≤ c.toNat ∧ c.toNat < 0x800 ∧ c.toNat ∉ scratchCodepoints)
    ⟨fun h => ⟨h.1, h.2.1, h.2.2⟩, fun h => ⟨h.lower, h.upper, h.not_scratch⟩⟩

/-- A dictionary from letters and two-letter ligatures to the glyphs of their
isolated, initial, medial and final forms. -/
structure FormsTable where
  items : List CharacterForms
  keys_nodup : (items.map Prod.fst).Nodup
  key_length : ∀ item ∈ items, item.1.length = 1 ∨ item.1.length = 2
  forms_length : ∀ item ∈ items, item.2.length = 4
  letters : ∀ item ∈ items, ∀ c ∈ item.1, TableLetter c

def kashida : Char := 'ـ'

inductive Subset
  | full
  | arabic
  deriving DecidableEq, Repr

/-- `subsets[subset_key]`. -/
def shapedAlphabet : Subset → List Char
  | .full => "ابپتٹثجچحخدڈذرڑزژسشصضطظعغفقكکگلمنوهھءیےټڅځډړږښګڼيېۍئڕێۆەڵڤأإةىؤآ".toList ++ [kashida]
  | .arabic => "غظضذخثتشرقصفعسنملكيطحزوهدجباءآأإة".toList ++ [kashida]

/-- `ligatures`. -/
def ligatures : List (List Char) := ["لا".toList]

/-- Both alphabets consist of letters that can be shaped, none of zero width,
and the ligatures are pairs of such letters. -/
theorem shapedAlphabet_letters (subset : Subset) :
    (∀ c ∈ shapedAlphabet subset, TableLetter c ∧ isZeroWidth c.toNat = false) ∧
      ∀ ch ∈ ligatures, ch.length = 2 ∧ ∀ c ∈ ch, c ∈ shapedAlphabet subset := by
  have arabic : ∀ c ∈ shapedAlphabet subset,
      0x600 ≤ c.toNat ∧ c.toNat < 0x700 ∧ isZeroWidth c.toNat = false := by
    cases subset <;> decide +kernel
  refine ⟨?_, by cases subset <;> decide +kernel⟩
  intro c member
  obtain ⟨lower, upper, wide⟩ := arabic c member
  refine ⟨⟨by omega, by omega, ?_⟩, wide⟩
  rw [mem_scratchCodepoints]
  omega

/-- A corner of the alphabet: lam, alef, their ligature and kashida. -/
def lamAlefForms : FormsTable where
  items := [(['ل'], [1, 2, 3, 4]), (['ا'], [5, 5, 6, 6]), (['ل', 'ا'], [7, 7, 8, 8]),
    ([kashida], [9, 9, 9, 9])]
  keys_nodup := by decide
  key_length := by decide
  forms_length := by decide
  letters := by decide

namespace FormsTable

variable (forms : FormsTable)

/-- Ligatures consist of letters that are keys themselves. -/
def LigaturesOfLetters : Prop :=
  ∀ item ∈ forms.items, ∀ c ∈ item.1, [c] ∈ forms.items.map Prod.fst

instance : Decidable forms.LigaturesOfLetters :=
  inferInstanceAs (Decidable (∀ item ∈ forms.items, ∀ c ∈ item.1, _))

/-- No key contains a zero-width letter. -/
def NoZeroWidth : Prop :=
  ∀ item ∈ forms.items, ∀ c ∈ item.1, isZeroWidth c.toNat = false

instance : Decidable forms.NoZeroWidth :=
  inferInstanceAs (Decidable (∀ item ∈ forms.items, ∀ c ∈ item.1, _))

/-- No glyph serves two different keys. -/
def UnsharedGlyphs : Prop :=
  ∀ first ∈ forms.items, ∀ second ∈ forms.items, ∀ glyph ∈ first.2,
    glyph ∈ second.2 → first = second

instance : Decidable forms.UnsharedGlyphs :=
  inferInstanceAs (Decidable (∀ first ∈ forms.items, ∀ second ∈ forms.items, _))

end FormsTable

/-! ## The emitted arrays -/

theorem sortedForms_perm (forms : List CharacterForms) : (sortedForms forms).Perm forms :=
  List.perm_insertionSort _ _

/-- A successful run of `pack_lut` has packed every key. -/
theorem packLut_ok {unicodedataName : Char → Option String} {forms : FormsTable}
    {packed : PackState} (run : packLut unicodedataName forms.items = .ok packed) :
    ∃ pairs, pairs.map Prod.fst = sortedForms forms.items ∧ packed.Packed pairs := by
  have sorted := sortedForms_perm forms.items
  obtain ⟨pairs, keys, done⟩ := PackState.packCharacters_ok PackState.packed_start
    (fun item member => forms.key_length item (sorted.mem_iff.mp member))
    (fun item member => forms.forms_length item (sorted.mem_iff.mp member)) run
  exact ⟨pairs, keys, done⟩

/-- A search stops at the only element that satisfies its condition. -/
theorem find?_eq_some_of_unique {α : Type} {condition : α → Bool} {values : List α} {value : α}
    (member : value ∈ values) (holds : condition value = true)
    (unique : ∀ other ∈ values, condition other = true → other = value) :
    values.find? condition = some value := by
  cases found : values.find? condition with
  | none => exact absurd holds (List.find?_eq_none.mp found value member)
  | some other =>
      rw [unique other (List.mem_of_find?_eq_some found) (List.find?_some found)]

/-- Keys that map to one value under an optional key function coincide when
the mapped list is duplicate-free. -/
theorem eq_of_nodup_filterMap {α β : Type} {f : α → Option β} {values : List α}
    (nodup : (values.filterMap f).Nodup) {first second : α} {image : β}
    (firstMem : first ∈ values) (secondMem : second ∈ values)
    (firstEq : f first = some image) (secondEq : f second = some image) : first = second := by
  induction values with
  | nil => simp at firstMem
  | cons value values ih =>
      have later {other : α} (member : other ∈ values) (eq : f other = some image) :
          image ∈ values.filterMap f :=
        List.mem_filterMap.mpr ⟨other, member, eq⟩
      rcases List.mem_cons.mp firstMem with rfl | firstTail <;>
        rcases List.mem_cons.mp secondMem with rfl | secondTail
      · rfl
      · rw [List.filterMap_cons, firstEq] at nodup
        exact absurd (later secondTail secondEq) (List.nodup_cons.mp nodup).1
      · rw [List.filterMap_cons, secondEq] at nodup
        exact absurd (later firstTail firstEq) (List.nodup_cons.mp nodup).1
      · apply ih _ firstTail secondTail
        rw [List.filterMap_cons] at nodup
        split at nodup
        · exact nodup
        · exact (List.nodup_cons.mp nodup).2

theorem mem_ligaturesOf {pairs : List (CharacterForms × ShaperLUTEntry)}
    {record : LigatureRecord} (member : record ∈ ligaturesOf pairs) :
    ∃ pair ∈ pairs, ∃ a b, pair.1.1 = [a, b] ∧ record = ⟨a.toNat, b.toNat, pair.2.trueCodept⟩ := by
  obtain ⟨pair, inPairs, eq⟩ := List.mem_filterMap.mp member
  refine ⟨pair, inPairs, ?_⟩
  unfold ligatureRecord at eq
  split at eq
  next a b key => exact ⟨a, b, key, (Option.some.inj eq).symm⟩
  next => cases eq

section PackedKeys

variable {forms : FormsTable} {packed : PackState}
  {pairs : List (CharacterForms × ShaperLUTEntry)}

/-- The entries of a table together with the keys they were packed for. -/
structure PackedTable (forms : FormsTable) (packed : PackState)
    (pairs : List (CharacterForms × ShaperLUTEntry)) : Prop where
  keys : pairs.map Prod.fst = sortedForms forms.items
  done : packed.Packed pairs

namespace PackedTable

variable (table : PackedTable forms packed pairs)

include table

theorem item_mem {pair : CharacterForms × ShaperLUTEntry} (member : pair ∈ pairs) :
    pair.1 ∈ forms.items := by
  apply (sortedForms_perm forms.items).mem_iff.mp
  rw [← table.keys]
  exact List.mem_map_of_mem member

theorem exists_pair {item : CharacterForms} (member : item ∈ forms.items) :
    ∃ entry, (item, entry) ∈ pairs := by
  have sorted := (sortedForms_perm forms.items).mem_iff.mpr member
  rw [← table.keys] at sorted
  obtain ⟨⟨key, entry⟩, inPairs, rfl⟩ := List.mem_map.mp sorted
  exact ⟨entry, inPairs⟩

/-- A pair is determined by its key. -/
theorem pair_eq {first second : CharacterForms × ShaperLUTEntry} (firstMem : first ∈ pairs)
    (secondMem : second ∈ pairs) (key : first.1.1 = second.1.1) : first = second := by
  have nodup : (pairs.map fun pair => pair.1.1).Nodup := by
    have sorted : ((sortedForms forms.items).map Prod.fst).Nodup :=
      ((sortedForms_perm forms.items).map Prod.fst).nodup_iff.mpr forms.keys_nodup
    rw [← table.keys, List.map_map] at sorted
    exact sorted
  exact List.inj_on_of_nodup_map nodup firstMem secondMem key

theorem key_cases {pair : CharacterForms × ShaperLUTEntry} (member : pair ∈ pairs) :
    (∃ c, pair.1.1 = [c] ∧ TableLetter c ∧ pair.2.trueCodept = c.toNat) ∨
      ∃ a b, pair.1.1 = [a, b] ∧ TableLetter a ∧ TableLetter b ∧
        (⟨a.toNat, b.toNat, pair.2.trueCodept⟩ : LigatureRecord) ∈ ligaturesOf pairs := by
  have inItems := table.item_mem member
  have letters := forms.letters _ inItems
  rcases forms.key_length _ inItems with one | two
  · obtain ⟨c, eq⟩ := List.length_eq_one_iff.mp one
    exact Or.inl ⟨c, eq, letters c (by simp [eq]), table.done.letter _ member c eq⟩
  · obtain ⟨a, b, eq⟩ := List.length_eq_two.mp two
    refine Or.inr ⟨a, b, eq, letters a (by simp [eq]), letters b (by simp [eq]), ?_⟩
    exact List.mem_filterMap.mpr ⟨pair, member, by simp [ligatureRecord, eq]⟩

/-- Glyph and ligature codepoints together, all different. -/
theorem codepts_nodup :
    (packed.selectedGlyphs.map Prod.snd ++
      (ligaturesOf pairs).map LigatureRecord.replacement).Nodup :=
  table.done.allocated.dirtied.nodup_iff.mp table.done.allocated.dirtied_nodup

theorem replacement_scratch {record : LigatureRecord} (member : record ∈ ligaturesOf pairs) :
    record.replacement ∈ scratchCodepoints := by
  apply table.done.allocated.dirtied_scratch
  apply table.done.allocated.dirtied.mem_iff.mpr
  exact List.mem_append_right _ (List.mem_map_of_mem member)

/-- Entries are determined by their true codepoints. -/
theorem pair_eq_of_trueCodept {first second : CharacterForms × ShaperLUTEntry}
    (firstMem : first ∈ pairs) (secondMem : second ∈ pairs)
    (same : first.2.trueCodept = second.2.trueCodept) : first = second := by
  rcases table.key_cases firstMem with
      ⟨c, firstKey, firstLetter, firstEq⟩ | ⟨a, b, firstKey, -, -, firstLig⟩ <;>
    rcases table.key_cases secondMem with
      ⟨d, secondKey, secondLetter, secondEq⟩ | ⟨a', b', secondKey, -, -, secondLig⟩
  · apply table.pair_eq firstMem secondMem
    rw [firstKey, secondKey, Char.toNat_inj.mp (firstEq.symm.trans (same.trans secondEq))]
  · exact absurd (by rw [← firstEq, same]; exact table.replacement_scratch secondLig)
      firstLetter.not_scratch
  · exact absurd (by rw [← secondEq, ← same]; exact table.replacement_scratch firstLig)
      secondLetter.not_scratch
  · have nodup := table.codepts_nodup.of_append_right
    unfold ligaturesOf at nodup
    rw [List.map_filterMap] at nodup
    have firstImage : (ligatureRecord first.1.1 first.2.trueCodept).map
        LigatureRecord.replacement = some second.2.trueCodept := by
      simp [ligatureRecord, firstKey, same]
    have secondImage : (ligatureRecord second.1.1 second.2.trueCodept).map
        LigatureRecord.replacement = some second.2.trueCodept := by
      simp [ligatureRecord, secondKey]
    exact eq_of_nodup_filterMap nodup firstMem secondMem firstImage secondImage

theorem unmarked {record : LigatureRecord} (member : record ∈ ligaturesOf pairs) :
    record.Unmarked := by
  have scratch := table.replacement_scratch member
  obtain ⟨pair, inPairs, a, b, key, rfl⟩ := mem_ligaturesOf member
  have letters := forms.letters _ (table.item_mem inPairs)
  have first := (letters a (by simp [key])).upper
  have second := (letters b (by simp [key])).upper
  rw [mem_scratchCodepoints] at scratch
  refine ⟨?_, ?_, ?_⟩ <;> dsimp only at scratch ⊢ <;> omega

end PackedTable

end PackedKeys

/-! ## The runtime's lookups -/

inductive LetterForm
  | isolated
  | initial
  | medial
  | final
  deriving DecidableEq, Repr

/-- The stored distance of a form to the isolated codepoint. -/
def ShaperLUTEntry.delta (entry : ShaperLUTEntry) : LetterForm → Int
  | .isolated => 0
  | .initial => entry.initialCodeptDelta
  | .medial => entry.medialCodeptDelta
  | .final => entry.finalCodeptDelta

/-- The codepoint of a form, as the runtime adds it up. -/
def ShaperLUTEntry.formCodept (entry : ShaperLUTEntry) (form : LetterForm) : Int :=
  entry.isolatedCodept + entry.delta form

/-- The position of a form among the glyphs of a key. -/
def LetterForm.index : LetterForm → Nat
  | .isolated => 0
  | .initial => 1
  | .medial => 2
  | .final => 3

theorem EntryForms.formCodept_eq {selectedGlyphs : List (Nat × Nat)} {chForms : List Nat}
    {entry : ShaperLUTEntry} (entryForms : EntryForms selectedGlyphs chForms entry)
    (form : LetterForm) :
    ∃ glyph codept, chForms[form.index]? = some glyph ∧
      selectedGlyphs.lookup glyph = some codept ∧ entry.formCodept form = (codept : Int) := by
  obtain ⟨c0, c1, c2, c3, lookups, isolatedEq, initialEq, medialEq, finalEq⟩ := entryForms
  match chForms, lookups with
  | [g0, g1, g2, g3], .cons h0 (.cons h1 (.cons h2 (.cons h3 .nil))) =>
      cases form with
      | isolated =>
          refine ⟨g0, c0, rfl, h0, ?_⟩
          simp [ShaperLUTEntry.formCodept, ShaperLUTEntry.delta, isolatedEq]
      | initial =>
          refine ⟨g1, c1, rfl, h1, ?_⟩
          simp [ShaperLUTEntry.formCodept, ShaperLUTEntry.delta, isolatedEq, initialEq]
      | medial =>
          refine ⟨g2, c2, rfl, h2, ?_⟩
          simp [ShaperLUTEntry.formCodept, ShaperLUTEntry.delta, isolatedEq, medialEq]
      | final =>
          refine ⟨g3, c3, rfl, h3, ?_⟩
          simp [ShaperLUTEntry.formCodept, ShaperLUTEntry.delta, isolatedEq, finalEq]

/-- Tables holding the arrays that were packed for a forms table. -/
structure RuntimeTables (forms : FormsTable) (packed : PackState)
    (pairs : List (CharacterForms × ShaperLUTEntry)) (tables : ShaperTables) : Prop
    extends PackedTable forms packed pairs where
  lut_eq : tables.arabicShaperLut = packed.lutData
  lig_eq : tables.arabicLigatureLut = packed.ligData

namespace RuntimeTables

variable {forms : FormsTable} {packed : PackState}
  {pairs : List (CharacterForms × ShaperLUTEntry)} {tables : ShaperTables}
  (runtime : RuntimeTables forms packed pairs tables)

include runtime

theorem entries_eq : tables.entries = pairs.map Prod.snd := by
  have decoded := runtime.done.lut []
  rw [ShaperTables.entries, runtime.lut_eq]
  simpa [shaperLutEntries] using decoded

theorem ligatureWords_eq :
    tables.ligatureWords = (ligaturesOf pairs).flatMap LigatureRecord.words := by
  have decoded := runtime.done.lig []
  rw [ShaperTables.ligatureWords, runtime.lig_eq]
  simpa [ligatureLutWords] using decoded

theorem findLutEntryByCodept_eq (codept : Nat) :
    tables.findLutEntryByCodept codept =
      (pairs.map Prod.snd).find? fun entry => entry.trueCodept == codept := by
  have never : ¬ (codept < 0x600 ∧ 0x6ff < codept) := by omega
  simp [ShaperTables.findLutEntryByCodept, never, runtime.entries_eq]

/-- Every key's record is found under its true codepoint. -/
theorem findLutEntryByCodept_pair {pair : CharacterForms × ShaperLUTEntry}
    (member : pair ∈ pairs) :
    tables.findLutEntryByCodept pair.2.trueCodept = some pair.2 := by
  rw [runtime.findLutEntryByCodept_eq]
  apply find?_eq_some_of_unique (List.mem_map_of_mem member) (by simp)
  intro entry inEntries same
  obtain ⟨other, otherMem, rfl⟩ := List.mem_map.mp inEntries
  rw [runtime.pair_eq_of_trueCodept otherMem member (by simpa using same)]

theorem exists_pair_of_find {codept : Nat} {entry : ShaperLUTEntry}
    (found : tables.findLutEntryByCodept codept = some entry) :
    ∃ pair ∈ pairs, pair.2 = entry ∧ entry.trueCodept = codept := by
  rw [runtime.findLutEntryByCodept_eq] at found
  have inEntries := List.mem_of_find?_eq_some found
  have same := List.find?_some found
  obtain ⟨pair, member, rfl⟩ := List.mem_map.mp inEntries
  exact ⟨pair, member, rfl, by simpa using same⟩

theorem findLigatureByCodepts_eq (pattern : Nat → Nat) :
    tables.findLigatureByCodepts pattern 2 =
      ligatureOf (ligaturesOf pairs) (pattern 0) (pattern 1) := by
  rw [ShaperTables.findLigatureByCodepts, runtime.ligatureWords_eq]
  exact ligatureSearch_records pattern fun record member => runtime.unmarked member

theorem formCodept_scratch {pair : CharacterForms × ShaperLUTEntry} (member : pair ∈ pairs)
    (form : LetterForm) :
    ∃ codept ∈ scratchCodepoints, pair.2.formCodept form = (codept : Int) := by
  obtain ⟨glyph, codept, -, found, eq⟩ := (runtime.done.forms pair member).formCodept_eq form
  have allocated := runtime.done.allocated
  exact ⟨codept, allocated.dirtied_scratch (allocated.lookup_dirtied found), eq⟩

end RuntimeTables

/-! ## The range macro -/

/-- The intervals of the macro built from `shapableRanges` cover a codepoint. -/
def covered (shapableRanges : List (Nat × Nat)) (cp : Nat) : Bool :=
  shapableRanges.any fun r => inRange cp r.1 (r.2 + 1)

theorem arabicShaperRange_writeLut (lutData ligData : List UInt8)
    (shapableRanges : List (Nat × Nat)) (cp : Nat) :
    (writeLut lutData ligData shapableRanges).arabicShaperRange cp =
      covered shapableRanges cp := by
  simp [ShaperTables.arabicShaperRange, writeLut, covered, List.any_map, Function.comp_def]

/-- The open run is an interval, so closing it covers exactly its values. -/
theorem contiguousRangesFrom_ok (first count : Nat) (vals : List Nat) :
    ∃ ranges,
      contiguousRangesFrom (List.range' first (count + 1)) (some (first + count)) vals =
        .ok ranges ∧
      ∀ cp, covered ranges cp = true ↔ cp ∈ List.range' first (count + 1) ∨ cp ∈ vals := by
  have head : (List.range' first (count + 1)).head? = some first := by
    simp [List.range'_succ]
  have last : (List.range' first (count + 1)).getLast? = some (first + count) := by
    simp [List.range'_concat]
  induction vals generalizing first count with
  | nil =>
      refine ⟨[(first, first + count)], by simp [contiguousRangesFrom, head, last], ?_⟩
      intro cp
      simp [covered, inRange, List.mem_range'_1]
      omega
  | cons val vals ih =>
      by_cases next : first + count + 1 = val
      · -- The value extends the run.
        subst next
        have grown : List.range' first (count + 1) ++ [first + count + 1] =
            List.range' first (count + 1 + 1) := by
          rw [List.range'_concat (n := count + 1)]
          simp [Nat.add_assoc]
        obtain ⟨ranges, run, covers⟩ := ih first (count + 1)
          (by simp [List.range'_succ]) (by simp [List.range'_concat])
        refine ⟨ranges, ?_, ?_⟩
        · rw [contiguousRangesFrom, if_neg (by simp), grown]
          exact run
        · intro cp
          rw [covers, ← grown]
          simp [or_assoc]
      · obtain ⟨ranges, run, covers⟩ := ih val 0 (by simp) (by simp)
        refine ⟨(first, first + count) :: ranges, ?_, ?_⟩
        · rw [contiguousRangesFrom, if_pos (by simpa using next), head, last]
          have single : contiguousRangesFrom [val] (some val) vals = .ok ranges := run
          simp only [single]
          rfl
        · intro cp
          have coversVal := covers cp
          simp only [Nat.zero_add, List.range'_one, List.mem_singleton] at coversVal
          have interval : inRange cp first (first + count + 1) = true ↔
              cp ∈ List.range' first (count + 1) := by
            simp [inRange, List.mem_range'_1]
            omega
          simp only [covered, List.any_cons, Bool.or_eq_true] at coversVal ⊢
          rw [coversVal, interval, List.mem_cons]

/-- On a nonempty list the intervals cover exactly its values. -/
theorem contiguousRanges_ok {vals : List Nat} (nonempty : vals ≠ []) :
    ∃ ranges, contiguousRanges vals = .ok ranges ∧
      ∀ cp, covered ranges cp = true ↔ cp ∈ vals := by
  have perm := List.perm_insertionSort (· ≤ ·) vals
  unfold contiguousRanges
  cases sorted : vals.insertionSort (· ≤ ·) with
  | nil =>
      rw [sorted] at perm
      exact absurd perm.nil_eq.symm nonempty
  | cons val rest =>
      obtain ⟨ranges, run, covers⟩ := contiguousRangesFrom_ok val 0 rest
      refine ⟨ranges, ?_, ?_⟩
      · rw [contiguousRangesFrom, if_neg (by simp)]
        exact run
      · intro cp
        rw [covers, ← perm.mem_iff, sorted]
        simp

/-- Everything a successful generator run provides. -/
theorem generateTables_ok {unicodedataName : Char → Option String} {forms : FormsTable}
    {tables : ShaperTables} (run : generateTables unicodedataName forms.items = .ok tables) :
    ∃ packed pairs, packLut unicodedataName forms.items = .ok packed ∧
      RuntimeTables forms packed pairs tables ∧
      ∀ cp, tables.arabicShaperRange cp = true ↔ cp ∈ packed.dirtiedCodepts := by
  unfold generateTables at run
  obtain ⟨packed, pack, run⟩ := bind_ok run
  obtain ⟨ranges, group, emitted⟩ := bind_ok run
  obtain ⟨pairs, keys, done⟩ := packLut_ok pack
  rw [← Except.ok.inj emitted]
  refine ⟨packed, pairs, pack, ⟨⟨keys, done⟩, rfl, rfl⟩, ?_⟩
  intro cp
  have nonempty : packed.dirtiedCodepts ≠ [] := by
    intro empty
    rw [empty] at group
    simp [contiguousRanges, contiguousRangesFrom] at group
  obtain ⟨ranges', group', covers⟩ := contiguousRanges_ok nonempty
  rw [group] at group'
  obtain rfl := Except.ok.inj group'
  rw [arabicShaperRange_writeLut, covers]

/-- The tables of `lamAlefForms`. -/
def lamAlefTables : ShaperTables where
  arabicShaperLut :=
    [0x27, 0x06, 0x00, 0x07, 0, 1, 1, 0x40, 0x06, 0x02, 0x07, 0, 0, 0,
      0x44, 0x06, 0x03, 0x07, 1, 2, 3, 0x07, 0x07, 0x08, 0x07, 0, 1, 1]
  arabicLigatureLut := [0x44, 0x06, 0x27, 0x06, 0x07, 0x87]
  arabicShaperRanges := [(0x700, 0x70A)]

theorem generateTables_lamAlefForms :
    generateTables (fun _ => some "") lamAlefForms.items = .ok lamAlefTables := by
  decide

end Elbbep
