import Elbbep.LigatureTables

/-!
# Where the ligature search reads its pattern

`find_ligature_by_codepts` compares a word of the table with `pattern[pattern_idx]` before it
asks whether `pattern_idx` is below `pattern_size`.  The comparison is then discarded, but when
the whole pattern has been found and the table goes on, the element behind the pattern has been
read.  This file follows the index through the scan and determines when that happens.
-/

namespace Elbbep

/-! ## The scan with its reads -/

/-- The loop of `find_ligature_by_codepts` over the remaining table words, with its result and
the indices at which it reads `pattern`, in order. -/
def ligatureSearchReads (pattern : Nat → Nat) (patternSize : Nat) :
    (searching : Bool) → (patternIdx : Nat) → List Nat → Nat × List Nat
  | _, _, [] => (0, [])
  | true, patternIdx, word :: words =>
      -- `pattern[patternIdx]` is read by the first operand of the condition.
      let rest :=
        if word == pattern patternIdx && patternIdx < patternSize then
          ligatureSearchReads pattern patternSize true (patternIdx + 1) words
        else if word &&& ligReplacementCodeptMask ≠ 0 then
          (ligReplacementCodept word, [])
        else
          ligatureSearchReads pattern patternSize false 0 words
      (rest.1, patternIdx :: rest.2)
  | false, patternIdx, word :: words =>
      if word &&& ligReplacementCodeptMask ≠ 0 then
        ligatureSearchReads pattern patternSize true patternIdx words
      else
        ligatureSearchReads pattern patternSize false patternIdx words

/-- The reads belong to the search: apart from them it is the same. -/
theorem fst_ligatureSearchReads (pattern : Nat → Nat) (patternSize : Nat) (searching : Bool)
    (patternIdx : Nat) (words : List Nat) :
    (ligatureSearchReads pattern patternSize searching patternIdx words).1 =
      ligatureSearch pattern patternSize searching patternIdx words := by
  induction words generalizing searching patternIdx with
  | nil => cases searching <;> rfl
  | cons word words ih =>
      cases searching with
      | true =>
          simp only [ligatureSearchReads, ligatureSearch]
          split_ifs
          · exact ih true (patternIdx + 1)
          · rfl
          · exact ih false 0
      | false =>
          simp only [ligatureSearchReads, ligatureSearch]
          split_ifs
          · exact ih true patternIdx
          · exact ih false patternIdx

/-- The indices at which `find_ligature_by_codepts` reads `pattern`. -/
def ShaperTables.patternReads (tables : ShaperTables) (pattern : Nat → Nat) (patternSize : Nat) :
    List Nat :=
  (ligatureSearchReads pattern patternSize true 0 tables.ligatureWords).2

/-- The elements of the pattern array. -/
def patternElements (pattern : Nat → Nat) (patternSize : Nat) : List Nat :=
  (List.range patternSize).map pattern

/-- The scan never reads further than one element behind the pattern. -/
theorem ligatureSearchReads_le {pattern : Nat → Nat} {patternSize patternIdx : Nat}
    (reached : patternIdx ≤ patternSize) (searching : Bool) (words : List Nat) :
    ∀ idx ∈ (ligatureSearchReads pattern patternSize searching patternIdx words).2,
      idx ≤ patternSize := by
  induction words generalizing searching patternIdx with
  | nil => cases searching <;> simp [ligatureSearchReads]
  | cons word words ih =>
      cases searching with
      | true =>
          simp only [ligatureSearchReads, List.forall_mem_cons]
          refine ⟨reached, ?_⟩
          split_ifs with same
          · rw [Bool.and_eq_true, decide_eq_true_eq] at same
            exact ih same.2 true
          · simp
          · exact ih (Nat.zero_le _) false
      | false =>
          simp only [ligatureSearchReads]
          split_ifs
          · exact ih reached true
          · exact ih reached false

/-- That element does not matter: the result depends on the pattern only. -/
theorem ligatureSearch_congr {pattern other : Nat → Nat} {patternSize : Nat}
    (same : ∀ idx < patternSize, pattern idx = other idx) (searching : Bool) (patternIdx : Nat)
    (words : List Nat) :
    ligatureSearch pattern patternSize searching patternIdx words =
      ligatureSearch other patternSize searching patternIdx words := by
  induction words generalizing searching patternIdx with
  | nil => cases searching <;> rfl
  | cons word words ih =>
      cases searching with
      | true =>
          have condition : (word == pattern patternIdx && decide (patternIdx < patternSize)) =
              (word == other patternIdx && decide (patternIdx < patternSize)) := by
            by_cases inside : patternIdx < patternSize
            · rw [same patternIdx inside]
            · simp [inside]
          rw [ligatureSearch, ligatureSearch, condition, ih, ih]
      | false => rw [ligatureSearch, ligatureSearch, ih, ih]

/-! ## One word -/

/-- The scan reads behind the pattern from here on. -/
def Overruns (pattern : Nat → Nat) (patternSize : Nat) (searching : Bool) (patternIdx : Nat)
    (words : List Nat) : Prop :=
  ∃ idx ∈ (ligatureSearchReads pattern patternSize searching patternIdx words).2,
    patternSize ≤ idx

section Words

variable {pattern : Nat → Nat} {patternSize patternIdx word : Nat} {words : List Nat}

theorem not_overruns_nil (searching : Bool) :
    ¬ Overruns pattern patternSize searching patternIdx [] := by
  cases searching <;> simp [Overruns, ligatureSearchReads]

theorem overruns_behind (behind : patternSize ≤ patternIdx) :
    Overruns pattern patternSize true patternIdx (word :: words) :=
  ⟨patternIdx, by simp [ligatureSearchReads], behind⟩

theorem overruns_matched (inside : patternIdx < patternSize) (same : word = pattern patternIdx) :
    Overruns pattern patternSize true patternIdx (word :: words) ↔
      Overruns pattern patternSize true (patternIdx + 1) words := by
  simp [Overruns, ligatureSearchReads, inside, same, Nat.not_le.mpr inside]

theorem not_overruns_replacement (inside : patternIdx < patternSize)
    (differs : word ≠ pattern patternIdx) (marked : word &&& ligReplacementCodeptMask ≠ 0) :
    ¬ Overruns pattern patternSize true patternIdx (word :: words) := by
  simp [Overruns, ligatureSearchReads, differs, marked, inside]

theorem overruns_failed (inside : patternIdx < patternSize)
    (differs : word ≠ pattern patternIdx) (unmarked : word &&& ligReplacementCodeptMask = 0) :
    Overruns pattern patternSize true patternIdx (word :: words) ↔
      Overruns pattern patternSize false 0 words := by
  simp [Overruns, ligatureSearchReads, differs, unmarked, Nat.not_le.mpr inside]

theorem overruns_skipped (unmarked : word &&& ligReplacementCodeptMask = 0) :
    Overruns pattern patternSize false patternIdx (word :: words) ↔
      Overruns pattern patternSize false patternIdx words := by
  simp [Overruns, ligatureSearchReads, unmarked]

theorem overruns_resumed (marked : word &&& ligReplacementCodeptMask ≠ 0) :
    Overruns pattern patternSize false patternIdx (word :: words) ↔
      Overruns pattern patternSize true patternIdx words := by
  simp [Overruns, ligatureSearchReads, marked]

end Words

/-! ## One record -/

/-- The first list begins the second one, which goes on behind it. -/
def ProperPrefix (short long : List Nat) : Prop :=
  short <+: long ∧ short ≠ long

instance decidableProperPrefix (short long : List Nat) : Decidable (ProperPrefix short long) :=
  inferInstanceAs (Decidable (short <+: long ∧ short ≠ long))

theorem not_properPrefix_nil (short : List Nat) : ¬ ProperPrefix short [] := by
  rintro ⟨begins, differs⟩
  exact differs (List.prefix_nil.mp begins)

theorem nil_properPrefix (word : Nat) (words : List Nat) : ProperPrefix [] (word :: words) :=
  ⟨List.nil_prefix, by simp⟩

theorem cons_properPrefix_cons {element word : Nat} {short long : List Nat} :
    ProperPrefix (element :: short) (word :: long) ↔ word = element ∧ ProperPrefix short long := by
  unfold ProperPrefix
  rw [List.cons_prefix_cons, Ne, List.cons.injEq]
  constructor
  · rintro ⟨⟨rfl, begins⟩, differs⟩
    exact ⟨rfl, begins, fun same => differs ⟨rfl, same⟩⟩
  · rintro ⟨rfl, begins, differs⟩
    exact ⟨⟨rfl, begins⟩, fun same => differs same.2⟩

section Records

variable {pattern : Nat → Nat} {patternSize patternIdx : Nat} {record : LigatureRecord}
  {words : List Nat}

/-- The pattern from an index on stands in front of a word: either it has ended, or the word is
the element at the index and the rest goes on behind it. -/
theorem drop_properPrefix_cons {word : Nat} :
    ProperPrefix ((patternElements pattern patternSize).drop patternIdx) (word :: words) ↔
      patternSize ≤ patternIdx ∨ word = pattern patternIdx ∧
        ProperPrefix ((patternElements pattern patternSize).drop (patternIdx + 1)) words := by
  have length : (patternElements pattern patternSize).length = patternSize := by
    simp [patternElements]
  by_cases inside : patternIdx < patternSize
  · rw [List.drop_eq_getElem_cons (by omega), cons_properPrefix_cons]
    simp [patternElements, Nat.not_le.mpr inside]
  · rw [List.drop_of_length_le (by omega)]
    simp [nil_properPrefix, Nat.not_lt.mp inside]

/-- What the scan does on a record: it compares the letters, gives up at the first difference
and goes on behind the record, or compares the replacement as well. -/
theorem overruns_record (unmarked : record.Unmarked) :
    Overruns pattern patternSize true patternIdx (record.words ++ words) ↔
      patternSize ≤ patternIdx ∨
        if record.first ≠ pattern patternIdx then Overruns pattern patternSize true 0 words
        else patternSize ≤ patternIdx + 1 ∨
          if record.second ≠ pattern (patternIdx + 1) then
            Overruns pattern patternSize true 0 words
          else patternSize ≤ patternIdx + 2 ∨
            markedCodept record.replacement = pattern (patternIdx + 2) ∧
              Overruns pattern patternSize true (patternIdx + 3) words := by
  obtain ⟨firstLt, secondLt, -⟩ := unmarked
  have firstMask := and_mask_of_lt firstLt
  have secondMask := and_mask_of_lt secondLt
  have mark := markedCodept_and_mask record.replacement
  rw [LigatureRecord.words, List.cons_append, List.cons_append, List.cons_append, List.nil_append]
  by_cases behind : patternSize ≤ patternIdx
  · simp only [overruns_behind behind, behind, true_or]
  by_cases first : record.first = pattern patternIdx
  · rw [overruns_matched (by omega) first, if_neg (not_not.mpr first)]
    by_cases behindFirst : patternSize ≤ patternIdx + 1
    · simp only [overruns_behind behindFirst, behindFirst, true_or, or_true]
    by_cases second : record.second = pattern (patternIdx + 1)
    · rw [overruns_matched (by omega) second, if_neg (not_not.mpr second)]
      by_cases behindSecond : patternSize ≤ patternIdx + 2
      · have reached : Overruns pattern patternSize true (patternIdx + 2)
            (markedCodept record.replacement :: words) := overruns_behind behindSecond
        simp [reached, behindSecond]
      by_cases third : markedCodept record.replacement = pattern (patternIdx + 2)
      · rw [overruns_matched (by omega) third]
        simp [behind, behindFirst, behindSecond, third]
      · have ended : ¬ Overruns pattern patternSize true (patternIdx + 2)
            (markedCodept record.replacement :: words) :=
          not_overruns_replacement (Nat.not_le.mp behindSecond) third mark
        simp [ended, behind, behindFirst, behindSecond, third]
    · rw [overruns_failed (by omega) second secondMask, overruns_resumed mark, if_pos second]
      simp [behind, behindFirst]
  · rw [overruns_failed (by omega) first firstMask, overruns_skipped secondMask,
      overruns_resumed mark, if_pos first]
    simp [behind]

/-- The same stages for the rest of the pattern in front of a record. -/
theorem drop_properPrefix_record :
    ProperPrefix ((patternElements pattern patternSize).drop patternIdx) (record.words ++ words) ↔
      patternSize ≤ patternIdx ∨ record.first = pattern patternIdx ∧
        (patternSize ≤ patternIdx + 1 ∨ record.second = pattern (patternIdx + 1) ∧
          (patternSize ≤ patternIdx + 2 ∨
            markedCodept record.replacement = pattern (patternIdx + 2) ∧
              ProperPrefix ((patternElements pattern patternSize).drop (patternIdx + 3))
                words)) := by
  rw [LigatureRecord.words, List.cons_append, List.cons_append, List.cons_append, List.nil_append,
    drop_properPrefix_cons, drop_properPrefix_cons, drop_properPrefix_cons]

end Records

/-! ## The whole table -/

section Tables

variable {pattern : Nat → Nat} {patternSize : Nat} {records : List LigatureRecord}

/-- A pattern of two elements or more stands at a record with its first two only. -/
theorem not_properPrefix_of_letters (two : 2 ≤ patternSize)
    (absent : ∀ record ∈ records, record.letters ≠ (pattern 0, pattern 1)) :
    ¬ ProperPrefix (patternElements pattern patternSize)
      (records.flatMap LigatureRecord.words) := by
  cases records with
  | nil => exact not_properPrefix_nil _
  | cons record records =>
      intro stands
      have stages := stands
      rw [← List.drop_zero (l := patternElements pattern patternSize), List.flatMap_cons,
        drop_properPrefix_record] at stages
      rcases stages with none | ⟨first, one | ⟨second, -⟩⟩
      · omega
      · omega
      · exact absent record (by simp) (Prod.ext first second)

/-- When no record has the first two elements as its letters, a failed comparison does not start
over with success, so only the pattern that is being compared can be overrun. -/
theorem overruns_iff_of_letters (two : 2 ≤ patternSize)
    (unmarked : ∀ record ∈ records, record.Unmarked)
    (absent : ∀ record ∈ records, record.letters ≠ (pattern 0, pattern 1)) (patternIdx : Nat) :
    Overruns pattern patternSize true patternIdx (records.flatMap LigatureRecord.words) ↔
      ProperPrefix ((patternElements pattern patternSize).drop patternIdx)
        (records.flatMap LigatureRecord.words) := by
  induction records generalizing patternIdx with
  | nil => exact iff_of_false (not_overruns_nil true) (not_properPrefix_nil _)
  | cons record records ih =>
      rw [List.forall_mem_cons] at unmarked absent
      have rest := ih unmarked.2 absent.2
      have restart : ¬ Overruns pattern patternSize true 0
          (records.flatMap LigatureRecord.words) := by
        rw [rest 0, List.drop_zero]
        exact not_properPrefix_of_letters two absent.2
      rw [List.flatMap_cons, overruns_record unmarked.1, drop_properPrefix_record,
        rest (patternIdx + 3)]
      by_cases first : record.first = pattern patternIdx
      · by_cases second : record.second = pattern (patternIdx + 1)
        · simp [first, second]
        · simp [first, second, restart]
      · simp [first, restart]

/-- The scan reads behind the pattern exactly when the pattern stands in the table from the start
of a record on, and the table goes on behind it. -/
theorem overruns_iff (unmarked : ∀ record ∈ records, record.Unmarked)
    (nodup : (records.map LigatureRecord.letters).Nodup) :
    Overruns pattern patternSize true 0 (records.flatMap LigatureRecord.words) ↔
      ∃ rest ∈ records.tails,
        ProperPrefix (patternElements pattern patternSize) (rest.flatMap LigatureRecord.words) := by
  induction records with
  | nil => simp [not_overruns_nil, not_properPrefix_nil]
  | cons record records ih =>
      rw [List.forall_mem_cons] at unmarked
      rw [List.map_cons, List.nodup_cons] at nodup
      have stages := @drop_properPrefix_record pattern patternSize 0 record
        (records.flatMap LigatureRecord.words)
      rw [List.drop_zero] at stages
      simp only [List.tails_cons, List.exists_mem_cons_iff]
      rw [← ih unmarked.2 nodup.2, List.flatMap_cons, overruns_record unmarked.1, stages]
      by_cases first : record.first = pattern 0
      · by_cases second : record.second = pattern 1
        · by_cases two : 2 ≤ patternSize
          · -- The pattern begins here, so it does not begin at a later record.
            have absent : ∀ other ∈ records, other.letters ≠ (pattern 0, pattern 1) := by
              intro other member same
              have letters : record.letters = (pattern 0, pattern 1) := Prod.ext first second
              exact nodup.1 (List.mem_map.mpr ⟨other, member, same.trans letters.symm⟩)
            have continued := overruns_iff_of_letters two unmarked.2 absent
            have restart : ¬ Overruns pattern patternSize true 0
                (records.flatMap LigatureRecord.words) := by
              rw [continued 0, List.drop_zero]
              exact not_properPrefix_of_letters two absent
            simp [first, second, restart, continued 3]
          · have short : patternSize ≤ 1 := by omega
            simp [first, short]
        · simp [first, second, or_assoc]
      · simp [first]

end Tables

namespace LigatureTable

variable (table : LigatureTable)

/-- The elements stand in the array from the start of a record on, and a word follows them. -/
def StandsInside (elements : List Nat) : Prop :=
  ∃ rest ∈ table.records.tails, ProperPrefix elements (rest.flatMap LigatureRecord.words)

instance (elements : List Nat) : Decidable (table.StandsInside elements) :=
  inferInstanceAs (Decidable (∃ rest ∈ table.records.tails, _))

theorem patternReads_inside_iff_not_overruns {tables : ShaperTables}
    (encodes : tables.arabicLigatureLut = table.bytes) (pattern : Nat → Nat) (patternSize : Nat) :
    (∀ idx ∈ tables.patternReads pattern patternSize, idx < patternSize) ↔
      ¬ Overruns pattern patternSize true 0 (table.records.flatMap LigatureRecord.words) := by
  rw [Overruns, ← table.ligatureWords_eq encodes]
  simp only [ShaperTables.patternReads, not_exists, not_and, Nat.not_le]

/-- `find_ligature_by_codepts` reads its pattern inside its bounds exactly when the pattern does
not stand in the table with a word behind it. -/
theorem patternReads_inside_iff {tables : ShaperTables}
    (encodes : tables.arabicLigatureLut = table.bytes) (pattern : Nat → Nat) (patternSize : Nat) :
    (∀ idx ∈ tables.patternReads pattern patternSize, idx < patternSize) ↔
      ¬ table.StandsInside (patternElements pattern patternSize) := by
  rw [table.patternReads_inside_iff_not_overruns encodes,
    overruns_iff table.unmarked table.letters_nodup]
  rfl

/-- Two equal letters are not a pattern of the table. -/
theorem patternReads_inside_lam :
    ¬ lamLigatures.StandsInside (patternElements (codeptBuffer 0x644 0x644) 2) ∧
      ∀ idx ∈ (writeLut [] lamLigatures.bytes []).patternReads (codeptBuffer 0x644 0x644) 2,
        idx < 2 := by
  have outside : ¬ lamLigatures.StandsInside (patternElements (codeptBuffer 0x644 0x644) 2) := by
    decide
  exact ⟨outside, (lamLigatures.patternReads_inside_iff rfl _ 2).mpr outside⟩

/-- Lam and alef are: the search reads a third element of `codept_buffer`. -/
theorem patternReads_lamAlef :
    generateTables (fun _ => some "") lamAlefForms.items = .ok lamAlefTables ∧
      lamAlefTables.patternReads (codeptBuffer 0x644 0x627) 2 = [0, 1, 2] ∧
      ¬ ∀ idx ∈ lamAlefTables.patternReads (codeptBuffer 0x644 0x627) 2, idx < 2 := by
  refine ⟨generateTables_lamAlefForms, by decide, by decide⟩

/-- A pair of codepoints is read inside its bounds exactly when it is no pattern of the table. -/
theorem patternReads_pair_inside_iff {tables : ShaperTables}
    (encodes : tables.arabicLigatureLut = table.bytes) (pattern : Nat → Nat) :
    (∀ idx ∈ tables.patternReads pattern 2, idx < 2) ↔
      ∀ record ∈ table.records, record.letters ≠ (pattern 0, pattern 1) := by
  rw [table.patternReads_inside_iff_not_overruns encodes,
    overruns_iff table.unmarked table.letters_nodup]
  constructor
  · intro never record member same
    obtain ⟨before, behind, eq⟩ := List.append_of_mem member
    obtain ⟨first, second⟩ := Prod.mk.inj same
    refine never ⟨record :: behind, (List.mem_tails _ _).mpr ⟨before, eq.symm⟩, ?_⟩
    have stages := @drop_properPrefix_record pattern 2 0 record
      (behind.flatMap LigatureRecord.words)
    rw [List.flatMap_cons]
    exact stages.mpr (Or.inr ⟨first, Or.inr ⟨second, Or.inl le_rfl⟩⟩)
  · rintro absent ⟨rest, tail, stands⟩
    have suffix := (List.mem_tails _ _).mp tail
    exact not_properPrefix_of_letters le_rfl
      (fun record member => absent record (suffix.subset member)) stands

end LigatureTable

/-- With generated tables, the search for two codepoints reads behind them exactly when it is
successful. -/
theorem RuntimeTables.patternReads_inside_iff_not_found {forms : FormsTable} {packed : PackState}
    {pairs : List (CharacterForms × ShaperLUTEntry)} {tables : ShaperTables}
    (runtime : RuntimeTables forms packed pairs tables) (pattern : Nat → Nat) :
    (∀ idx ∈ tables.patternReads pattern 2, idx < 2) ↔
      tables.findLigatureByCodepts pattern 2 = 0 := by
  have table := runtime.toPackedTable
  have encodes : tables.arabicLigatureLut = table.ligatureTable.bytes :=
    runtime.lig_eq.trans table.ligData_eq
  rw [table.ligatureTable.patternReads_pair_inside_iff encodes,
    table.ligatureTable.findLigatureByCodepts_eq encodes]
  constructor
  · intro absent
    exact table.ligatureTable.ligatureOf_eq_zero absent
  · intro none record member same
    obtain ⟨first, second⟩ := Prod.mk.inj same
    rw [← first, ← second, table.ligatureTable.ligatureOf_eq member] at none
    have scratch := mem_scratchCodepoints.mp (table.replacement_scratch member)
    omega

end Elbbep
