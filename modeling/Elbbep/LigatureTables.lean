import Elbbep.UnshapedText

/-!
# Searching and inverting the ligature table

The ligature table is a flat array: two letters, then the replacement with its most
significant bit set, and so on, with no record lengths.  `find_ligature_by_codepts` looks
for a pair of letters and `expand_ligature` for a replacement.  This file shows that both
find whole records, in the tables that `pack_lut` emits and in all others like them.
-/

namespace Elbbep

open ByteMemory Utf8Encoding PythonStruct

namespace LigatureRecord

/-- The pattern that the record replaces. -/
def letters (record : LigatureRecord) : Nat × Nat :=
  (record.first, record.second)

/-- The record as `pack_lut` appends it to `lig_data`. -/
def bytes (record : LigatureRecord) : List UInt8 :=
  record.words.flatMap encodeH

/-- Both letters are encoded in 2 bytes. -/
def TwoByte (record : LigatureRecord) : Prop :=
  (0x80 ≤ record.first ∧ record.first < 0x800) ∧ 0x80 ≤ record.second ∧ record.second < 0x800

end LigatureRecord

/-- Ligatures with different patterns and different replacements, in which the most
significant bit is free to mark the replacement. -/
structure LigatureTable where
  records : List LigatureRecord
  unmarked : ∀ record ∈ records, record.Unmarked
  letters_nodup : (records.map LigatureRecord.letters).Nodup
  replacements_nodup : (records.map LigatureRecord.replacement).Nodup

namespace LigatureTable

/-- `ARABIC_LIGATURE_LUT`. -/
def bytes (table : LigatureTable) : List UInt8 :=
  table.records.flatMap LigatureRecord.bytes

end LigatureTable

/-! ## Words and bytes -/

theorem markedCodept_lt {codept : Nat} (unmarked : codept < 2 ^ 15) :
    markedCodept codept < 2 ^ 16 :=
  Nat.or_lt_two_pow (by omega) (by decide)

theorem LigatureRecord.Unmarked.words_lt {record : LigatureRecord} (unmarked : record.Unmarked) :
    ∀ word ∈ record.words, word < 65536 := by
  obtain ⟨first, second, replacement⟩ := unmarked
  have marked := markedCodept_lt replacement
  simp only [words, List.forall_mem_cons]
  exact ⟨by omega, by omega, by omega, by simp⟩

theorem ligatureLutWords_flatMap_encodeH {words : List Nat} (small : ∀ word ∈ words, word < 65536) :
    ligatureLutWords (words.flatMap encodeH) = words := by
  induction words with
  | nil => rfl
  | cons word words ih =>
      rw [List.forall_mem_cons] at small
      rw [List.flatMap_cons, encodeH, List.cons_append, List.cons_append, List.nil_append,
        ligatureLutWords, u16_encodeH small.1, ih small.2]

theorem length_ligatureLutWords (bytes : List UInt8) :
    (ligatureLutWords bytes).length = bytes.length / 2 := by
  induction bytes using ligatureLutWords.induct with
  | case1 b0 b1 bytes ih =>
      rw [ligatureLutWords, List.length_cons, ih, List.length_cons, List.length_cons]
      omega
  | case2 bytes short =>
      rcases bytes with _ | ⟨b0, _ | ⟨b1, bytes⟩⟩
      · rfl
      · simp [ligatureLutWords]
      · exact absurd rfl (short b0 b1 bytes)

/-- Nothing is lost by reading an array of even length as words. -/
theorem flatMap_encodeH_ligatureLutWords {bytes : List UInt8} (even : bytes.length % 2 = 0) :
    (ligatureLutWords bytes).flatMap encodeH = bytes := by
  induction bytes using ligatureLutWords.induct with
  | case1 b0 b1 bytes ih =>
      rw [List.length_cons, List.length_cons] at even
      have first := b0.toNat_lt
      have second := b1.toNat_lt
      have low : UInt8.ofNat (u16 b0 b1) = b0 := by
        apply UInt8.toNat_inj.mp
        rw [UInt8.toNat_ofNat', u16]
        omega
      have high : UInt8.ofNat (u16 b0 b1 / 256) = b1 := by
        apply UInt8.toNat_inj.mp
        rw [UInt8.toNat_ofNat', u16]
        omega
      rw [ligatureLutWords, List.flatMap_cons, ih (by omega), encodeH, low, high]
      rfl
  | case2 bytes short =>
      rcases bytes with _ | ⟨b0, _ | ⟨b1, bytes⟩⟩
      · rfl
      · simp at even
      · exact absurd rfl (short b0 b1 bytes)

namespace LigatureTable

variable (table : LigatureTable)

theorem bytes_eq : table.bytes = (table.records.flatMap LigatureRecord.words).flatMap encodeH := by
  rw [List.flatMap_assoc]
  rfl

/-- What the runtime reads the array as. -/
theorem ligatureLutWords_bytes :
    ligatureLutWords table.bytes = table.records.flatMap LigatureRecord.words := by
  rw [bytes_eq, ligatureLutWords_flatMap_encodeH]
  intro word member
  obtain ⟨record, inRecords, inWords⟩ := List.mem_flatMap.mp member
  exact (table.unmarked record inRecords).words_lt word inWords

end LigatureTable

/-! ## What the generator emits -/

namespace PackedTable

variable {forms : FormsTable} {packed : PackState}
  {pairs : List (CharacterForms × ShaperLUTEntry)}

/-- The ligatures of a forms table, with the codepoints they were assigned. -/
def ligatureTable (table : PackedTable forms packed pairs) : LigatureTable where
  records := ligaturesOf pairs
  unmarked _ member := table.unmarked member
  letters_nodup := by
    -- Keys are distinct, and a pattern spells its key.
    rw [List.nodup_map_iff_inj_on table.codepts_nodup.of_append_right.of_map]
    intro first firstMem second secondMem same
    obtain ⟨one, oneMem, a, b, oneKey, rfl⟩ := mem_ligaturesOf firstMem
    obtain ⟨two, twoMem, c, d, twoKey, rfl⟩ := mem_ligaturesOf secondMem
    obtain ⟨left, right⟩ := Prod.mk.inj same
    obtain rfl := Char.toNat_inj.mp left
    obtain rfl := Char.toNat_inj.mp right
    rw [table.pair_eq oneMem twoMem (oneKey.trans twoKey.symm)]
  replacements_nodup := table.codepts_nodup.of_append_right

theorem twoByte (table : PackedTable forms packed pairs) :
    ∀ record ∈ table.ligatureTable.records, record.TwoByte := by
  intro record member
  obtain ⟨pair, inPairs, a, b, key, rfl⟩ := mem_ligaturesOf member
  have letters := forms.letters _ (table.item_mem inPairs)
  have first := letters a (by simp [key])
  have second := letters b (by simp [key])
  exact ⟨⟨first.lower, first.upper⟩, second.lower, second.upper⟩

/-- `lig_data` is the array of this table. -/
theorem ligData_eq (table : PackedTable forms packed pairs) :
    packed.ligData = table.ligatureTable.bytes := by
  have words := table.done.lig []
  have more := table.done.lig [0]
  simp only [List.append_nil, ligatureLutWords] at words more
  have even : packed.ligData.length % 2 = 0 := by
    have lengths := congrArg List.length (more.trans words.symm)
    rw [length_ligatureLutWords, length_ligatureLutWords, List.length_append] at lengths
    rw [List.length_singleton] at lengths
    omega
  rw [LigatureTable.bytes_eq, ← flatMap_encodeH_ligatureLutWords even, words]
  rfl

end PackedTable

/-- What `pack_lut` emits for a forms table is the array of such a table. -/
theorem packLut_ligData {unicodedataName : Char → Option String} {forms : FormsTable}
    {packed : PackState} (run : packLut unicodedataName forms.items = .ok packed) :
    ∃ table : LigatureTable, packed.ligData = table.bytes ∧
      ∀ record ∈ table.records, record.TwoByte := by
  obtain ⟨pairs, keys, done⟩ := packLut_ok run
  have table : PackedTable forms packed pairs := ⟨keys, done⟩
  exact ⟨table.ligatureTable, table.ligData_eq, table.twoByte⟩

/-! ## The record start of `expand_ligature` -/

/-- `while (!(ligature_lut[last_pattern_start] & LIG_REPLACEMENT_CODEPT_MASK))`, over the table
words from `last_pattern_start` on. -/
def writePattern (m : Memory) (ptr : Int) : List Nat → Memory
  | [] => m
  | word :: words =>
      if word &&& ligReplacementCodeptMask ≠ 0 then m
      else writePattern (writeUtf8 m ptr word) (ptr + runeSize) words

/-- The loop of `expand_ligature` with its indices; the last argument holds the table words from
`i` on. -/
def expandLoop (ligatureLut : List Nat) (m : Memory) (codept : Nat) (ptr : Int) :
    (i lastPatternStart : Nat) → List Nat → Bool × Memory
  | _, _, [] => (false, m)
  | i, lastPatternStart, word :: words =>
      if word &&& ligReplacementCodeptMask ≠ 0 then
        if ligReplacementCodept word = codept then
          (true, writePattern m (ptr - runeSize * ((i : Int) - lastPatternStart - 1))
            (ligatureLut.drop lastPatternStart))
        else expandLoop ligatureLut m codept ptr (i + 1) (i + 1) words
      else expandLoop ligatureLut m codept ptr (i + 1) lastPatternStart words

/-- Writing stops at the first marked word. -/
theorem writePattern_append {pattern : List Nat}
    (unmarked : ∀ word ∈ pattern, word &&& ligReplacementCodeptMask = 0) {mark : Nat}
    (marked : mark &&& ligReplacementCodeptMask ≠ 0) (rest : List Nat) (m : Memory) (ptr : Int) :
    writePattern m ptr (pattern ++ mark :: rest) = writeRunes m ptr pattern := by
  induction pattern generalizing m ptr with
  | nil => simp [writePattern, writeRunes, marked]
  | cons word pattern ih =>
      rw [List.forall_mem_cons] at unmarked
      rw [List.cons_append, writePattern, if_neg (not_not.mpr unmarked.1), ih unmarked.2,
        writeRunes]

/-- The indices delimit the words that have been passed since the last replacement. -/
theorem expandLoop_eq {before pattern words : List Nat}
    (unmarked : ∀ word ∈ pattern, word &&& ligReplacementCodeptMask = 0) (m : Memory)
    (codept : Nat) (ptr : Int) :
    expandLoop (before ++ pattern ++ words) m codept ptr (before.length + pattern.length)
        before.length words =
      (ligaturePattern codept pattern words).elim (false, m) fun letters =>
        (true, writeRunes m (ptr - runeSize * (letters.length - 1)) letters) := by
  induction words generalizing before pattern with
  | nil => rfl
  | cons word words ih =>
      rw [expandLoop, ligaturePattern]
      by_cases marked : word &&& ligReplacementCodeptMask ≠ 0
      · rw [if_pos marked, if_pos marked]
        by_cases here : ligReplacementCodept word = codept
        · have back : ((before.length + pattern.length : Nat) : Int) - before.length - 1 =
              pattern.length - 1 := by
            push_cast
            omega
          rw [if_pos here, if_pos here, back, List.append_assoc, List.drop_left,
            writePattern_append unmarked marked]
          rfl
        · have next := @ih (before ++ pattern ++ [word]) [] (by simp)
          rw [if_neg here, if_neg here, ← next]
          simp [Nat.add_assoc]
      · have grown : ∀ other ∈ pattern ++ [word], other &&& ligReplacementCodeptMask = 0 := by
          intro other member
          rcases List.mem_append.mp member with earlier | last
          · exact unmarked other earlier
          · rw [List.mem_singleton.mp last]
            exact not_not.mp marked
        have next := @ih before _ grown
        rw [if_neg marked, if_neg marked, ← next]
        simp [Nat.add_assoc]

/-- In every table, the loop expands what `ShaperTables.expandLigature` does. -/
theorem ShaperTables.expandLigature_eq_expandLoop (tables : ShaperTables) (m : Memory)
    (codept : Nat) (ptr : Int) :
    tables.expandLigature m codept ptr =
      expandLoop tables.ligatureWords m codept ptr 0 0 tables.ligatureWords := by
  have loop := @expandLoop_eq [] [] tables.ligatureWords (by simp) m codept ptr
  rw [ShaperTables.expandLigature, ShaperTables.ligatureLetters]
  cases found : ligaturePattern codept [] tables.ligatureWords with
  | none =>
      rw [found] at loop
      exact loop.symm
  | some letters =>
      rw [found] at loop
      exact loop.symm

/-! ## Both scans are exact -/

/-- The second memory has the letters of the ligature at `ptr - 2` and `ptr`, and nothing else
has been written. -/
structure WritesLetters (record : LigatureRecord) (ptr : Int) (m after : Memory) : Prop where
  spelled : Spells after.byte (ptr - 2) (encode [Char.ofNat record.first, Char.ofNat record.second])
  within : StoresWithin (ptr - 2) (ptr + 2) m after

theorem writesLetters_writeUtf8 (m : Memory) (ptr : Int) {record : LigatureRecord}
    (twoByte : record.TwoByte) :
    WritesLetters record ptr m
      (writeUtf8 (writeUtf8 m (ptr - 2) record.first) ptr record.second) := by
  obtain ⟨⟨firstLow, firstHigh⟩, secondLow, secondHigh⟩ := twoByte
  have firstSize := ofNat_size firstLow firstHigh
  have first := writeUtf8_spells m (ptr - 2) firstSize
  have second := writeUtf8_spells (writeUtf8 m (ptr - 2) record.first) ptr
    (ofNat_size secondLow secondHigh)
  rw [toNat_ofNat_of_lt firstHigh] at first
  rw [toNat_ofNat_of_lt secondHigh] at second
  have one := writeUtf8_within m (ptr - 2) record.first
  have two := writeUtf8_within (writeUtf8 m (ptr - 2) record.first) ptr record.second
  have firstLength : ((String.utf8EncodeChar (Char.ofNat record.first)).length : Int) = 2 := by
    rw [String.length_utf8EncodeChar, firstSize]
    rfl
  constructor
  · rw [encode_cons, spells_append, firstLength, encode_cons, encode_nil, List.append_nil,
      Int.sub_add_cancel]
    exact ⟨two.spells first (Or.inl (by omega)), second⟩
  · exact (one.mono le_rfl (by omega)).trans (two.mono (by omega) le_rfl)

namespace LigatureTable

variable (table : LigatureTable)

/-- With different patterns, the record that is found for a pattern is the only one. -/
theorem ligatureOf_eq {record : LigatureRecord} (member : record ∈ table.records) :
    ligatureOf table.records record.first record.second = record.replacement := by
  have found : (table.records.find? fun other =>
      other.first == record.first && other.second == record.second) = some record := by
    apply find?_eq_some_of_unique member (by simp)
    intro other inRecords same
    rw [Bool.and_eq_true, beq_iff_eq, beq_iff_eq] at same
    exact List.inj_on_of_nodup_map table.letters_nodup inRecords member
      (Prod.ext same.1 same.2)
  rw [ligatureOf, found]

theorem ligatureOf_eq_zero {first second : Nat}
    (absent : ∀ record ∈ table.records, record.letters ≠ (first, second)) :
    ligatureOf table.records first second = 0 := by
  unfold ligatureOf
  split
  next other found =>
    have same := List.find?_some found
    rw [Bool.and_eq_true, beq_iff_eq, beq_iff_eq] at same
    exact absurd (Prod.ext same.1 same.2) (absent other (List.mem_of_find?_eq_some found))
  next => rfl

section Scans

variable {tables : ShaperTables} (encodes : tables.arabicLigatureLut = table.bytes)

include encodes

theorem ligatureWords_eq :
    tables.ligatureWords = table.records.flatMap LigatureRecord.words := by
  rw [ShaperTables.ligatureWords, encodes, ligatureLutWords_bytes]

theorem findLigatureByCodepts_eq (pattern : Nat → Nat) :
    tables.findLigatureByCodepts pattern 2 = ligatureOf table.records (pattern 0) (pattern 1) := by
  rw [ShaperTables.findLigatureByCodepts, table.ligatureWords_eq encodes]
  exact ligatureSearch_records pattern table.unmarked

theorem ligatureLetters_eq (codept : Nat) :
    tables.ligatureLetters codept =
      (table.records.find? fun record => record.replacement == codept).map
        fun record => [record.first, record.second] := by
  rw [ShaperTables.ligatureLetters, table.ligatureWords_eq encodes]
  exact ligaturePattern_records codept table.unmarked

/-- With different replacements, a replacement is expanded to its own letters. -/
theorem expandLigature_replacement {record : LigatureRecord} (member : record ∈ table.records)
    (m : Memory) (ptr : Int) :
    tables.expandLigature m record.replacement ptr =
      (true, writeUtf8 (writeUtf8 m (ptr - 2) record.first) ptr record.second) := by
  have found : (table.records.find? fun other => other.replacement == record.replacement) =
      some record := by
    apply find?_eq_some_of_unique member (by simp)
    intro other inRecords same
    exact List.inj_on_of_nodup_map table.replacements_nodup inRecords member (by simpa using same)
  rw [ShaperTables.expandLigature, table.ligatureLetters_eq encodes, found]
  simp [writeRunes, runeSize]

theorem expandLigature_other {codept : Nat}
    (other : ∀ record ∈ table.records, record.replacement ≠ codept) (m : Memory) (ptr : Int) :
    tables.expandLigature m codept ptr = (false, m) := by
  have missing : (table.records.find? fun record => record.replacement == codept) = none := by
    rw [List.find?_eq_none]
    intro record member
    simpa using other record member
  rw [ShaperTables.expandLigature, table.ligatureLetters_eq encodes, missing]
  rfl

end Scans

end LigatureTable

/-- The search for two codepoints returns the replacement of their record, or zero if they have
none; the elements behind the two do not matter.  A replacement is expanded to its two letters,
the second one in its own place, and no other codepoint is. -/
theorem LigatureTable.find_expand_exact (table : LigatureTable)
    (twoByte : ∀ record ∈ table.records, record.TwoByte) {tables : ShaperTables}
    (encodes : tables.arabicLigatureLut = table.bytes) :
    (∀ pattern : Nat → Nat,
      (∀ record ∈ table.records, record.letters = (pattern 0, pattern 1) →
        tables.findLigatureByCodepts pattern 2 = record.replacement) ∧
      ((∀ record ∈ table.records, record.letters ≠ (pattern 0, pattern 1)) →
        tables.findLigatureByCodepts pattern 2 = 0)) ∧
    ∀ (m : Memory) (ptr : Int),
      (∀ record ∈ table.records, ∃ after,
        tables.expandLigature m record.replacement ptr = (true, after) ∧
          WritesLetters record ptr m after) ∧
      ∀ codept, (∀ record ∈ table.records, record.replacement ≠ codept) →
        tables.expandLigature m codept ptr = (false, m) := by
  refine ⟨fun pattern => ⟨?_, ?_⟩, fun m ptr => ⟨?_, ?_⟩⟩
  · intro record member same
    obtain ⟨first, second⟩ := Prod.mk.inj same
    rw [table.findLigatureByCodepts_eq encodes, ← first, ← second, table.ligatureOf_eq member]
  · intro absent
    rw [table.findLigatureByCodepts_eq encodes, table.ligatureOf_eq_zero absent]
  · intro record member
    exact ⟨_, table.expandLigature_replacement encodes member m ptr,
      writesLetters_writeUtf8 m ptr (twoByte record member)⟩
  · intro codept other
    exact table.expandLigature_other encodes other m ptr

/-- Lam with alef and with alef madda, and alef with lam. -/
def lamLigatures : LigatureTable where
  records := [⟨0x644, 0x627, 0x700⟩, ⟨0x644, 0x622, 0x705⟩, ⟨0x627, 0x644, 0x70A⟩]
  unmarked := by simp [LigatureRecord.Unmarked]
  letters_nodup := by decide
  replacements_nodup := by decide

theorem LigatureTable.find_expand_exact_lam :
    (writeLut [] lamLigatures.bytes []).findLigatureByCodepts (codeptBuffer 0x644 0x622) 2 =
        0x705 ∧
      (writeLut [] lamLigatures.bytes []).findLigatureByCodepts (codeptBuffer 0x644 0x644) 2 =
        0 ∧
      (∃ after, (writeLut [] lamLigatures.bytes []).expandLigature
          (.ofBytes 0 (encode ['ا', 'ل'])) 0x705 2 = (true, after) ∧
        WritesLetters ⟨0x644, 0x622, 0x705⟩ 2 (.ofBytes 0 (encode ['ا', 'ل'])) after) ∧
      (writeLut [] lamLigatures.bytes []).expandLigature (.ofBytes 0 (encode ['ا', 'ل'])) 0x644 2 =
        (false, .ofBytes 0 (encode ['ا', 'ل'])) := by
  obtain ⟨finds, expands⟩ := lamLigatures.find_expand_exact
    (show ∀ record ∈ lamLigatures.records, record.TwoByte by
      simp [lamLigatures, LigatureRecord.TwoByte])
    (show (writeLut [] lamLigatures.bytes []).arabicLigatureLut = lamLigatures.bytes from rfl)
  obtain ⟨replacement, other⟩ := expands (.ofBytes 0 (encode ['ا', 'ل'])) 2
  refine ⟨(finds _).1 ⟨0x644, 0x622, 0x705⟩ (by decide) rfl, (finds _).2 (by decide),
    replacement ⟨0x644, 0x622, 0x705⟩ (by decide), other 0x644 (by decide)⟩

end Elbbep
