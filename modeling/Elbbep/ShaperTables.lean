import Elbbep.Utf8
import Elbbep.PythonStruct

/-!
# The tables behind the text shaper

The runtime is compiled against two generated files.  `font_ranges.c` defines
`is_zero_width`, and `text_shaper_lut.h` provides a byte array of packed
letter records, a byte array of ligature patterns, and the macro that
recognizes the recycled codepoints.  This file embeds the lookups of
`runtime/text_shaper.c` over such tables.
-/

namespace Elbbep

open ByteMemory PythonStruct

/-- `RANGE(cp, start, end)`. -/
def inRange (cp start stop : Nat) : Bool :=
  start ≤ cp && cp < stop

/-- `ZERO_WIDTH_CODEPOINT_RANGES` of `fonts/compose.py`. -/
def zeroWidthCodepointRanges : List (Nat × Nat) :=
  [(0x591, 0x5C0), -- Hebrew diacritics
    (0x5C1, 0x5C3), (0x5C4, 0x5C6), (0x5C7, 0x5C8),
    (0x610, 0x61B), -- Arabic diacritics
    (0x64B, 0x660), (0x6D6, 0x6DC), (0x6DF, 0x6E9), (0x6EA, 0x6EE),
    (0x8B6, 0x8FF)] -- Arabic Extended-A diacritics

def zeroWidthCodepoints : List Nat :=
  zeroWidthCodepointRanges.flatMap fun r => List.range' r.1 (r.2 - r.1)

/-- The generated `is_zero_width`. -/
def isZeroWidth (codept : Nat) : Bool :=
  zeroWidthCodepointRanges.any fun r => inRange codept r.1 r.2

/-- `ZERO_WIDTH_CODEPT`, the first zero-width codepoint. -/
def zeroWidthCodept : Nat :=
  zeroWidthCodepoints.headD 0

theorem zeroWidthCodept_eq : zeroWidthCodept = 0x591 := by
  decide

structure ShaperLUTEntry where
  trueCodept : Nat
  isolatedCodept : Nat
  initialCodeptDelta : Int
  medialCodeptDelta : Int
  finalCodeptDelta : Int
  deriving DecidableEq, Repr

/-- What `write_lut` puts into `text_shaper_lut.h`: the two arrays and the
intervals `[start, end)` of `ARABIC_SHAPER_RANGE`. -/
structure ShaperTables where
  arabicShaperLut : List UInt8
  arabicLigatureLut : List UInt8
  arabicShaperRanges : List (Nat × Nat)
  deriving DecidableEq, Repr

/-- A byte array read as packed `ShaperLUTEntry` records. -/
def shaperLutEntries : List UInt8 → List ShaperLUTEntry
  | b0 :: b1 :: b2 :: b3 :: b4 :: b5 :: b6 :: bytes =>
      ⟨u16 b0 b1, u16 b2 b3, i8 b4, i8 b5, i8 b6⟩ :: shaperLutEntries bytes
  | _ => []

/-- A byte array read as `uint16_t` elements. -/
def ligatureLutWords : List UInt8 → List Nat
  | b0 :: b1 :: bytes => u16 b0 b1 :: ligatureLutWords bytes
  | _ => []

def ligReplacementCodeptMask : Nat := 1 <<< 15

/-- `word & ~LIG_REPLACEMENT_CODEPT_MASK`. -/
def ligReplacementCodept (word : Nat) : Nat :=
  word &&& (~~~(BitVec.ofNat 16 ligReplacementCodeptMask)).toNat

def runeSize : Int := 2

namespace ShaperTables

variable (tables : ShaperTables)

/-- `ARABIC_SHAPER_RANGE(cp)`. -/
def arabicShaperRange (cp : Nat) : Bool :=
  tables.arabicShaperRanges.any fun r => inRange cp r.1 r.2

def entries : List ShaperLUTEntry :=
  shaperLutEntries tables.arabicShaperLut

def ligatureWords : List Nat :=
  ligatureLutWords tables.arabicLigatureLut

/-- `find_lut_entry_by_codept`.  The early return asks for a codepoint that is
both below `0x600` and above `0x6ff`. -/
def findLutEntryByCodept (codept : Nat) : Option ShaperLUTEntry :=
  if codept < 0x600 && codept > 0x6ff then none
  else tables.entries.find? fun entry => entry.trueCodept == codept

/-- `find_base_codept_by_shaped`, which compares in plain integers. -/
def findBaseCodeptByShaped (codept : Nat) : Nat :=
  match tables.entries.find? fun entry =>
      entry.isolatedCodept == codept ||
      (entry.isolatedCodept : Int) + entry.initialCodeptDelta == codept ||
      (entry.isolatedCodept : Int) + entry.medialCodeptDelta == codept ||
      (entry.isolatedCodept : Int) + entry.finalCodeptDelta == codept with
  | some entry => entry.trueCodept
  | none => 0

end ShaperTables

/-- The loop of `find_ligature_by_codepts` over the remaining table words. -/
def ligatureSearch (pattern : Nat → Nat) (patternSize : Nat) :
    (searching : Bool) → (patternIdx : Nat) → List Nat → Nat
  | _, _, [] => 0
  | true, patternIdx, word :: words =>
      if word == pattern patternIdx && patternIdx < patternSize then
        ligatureSearch pattern patternSize true (patternIdx + 1) words
      else if word &&& ligReplacementCodeptMask ≠ 0 then
        ligReplacementCodept word
      else
        ligatureSearch pattern patternSize false 0 words
  | false, patternIdx, word :: words =>
      if word &&& ligReplacementCodeptMask ≠ 0 then
        ligatureSearch pattern patternSize true patternIdx words
      else
        ligatureSearch pattern patternSize false patternIdx words

/-- `find_ligature_by_codepts`. -/
def ShaperTables.findLigatureByCodepts (tables : ShaperTables)
    (pattern : Nat → Nat) (patternSize : Nat) : Nat :=
  ligatureSearch pattern patternSize true 0 tables.ligatureWords

/-- Runes written one behind the other. -/
def writeRunes (m : Memory) (ptr : Int) : List Nat → Memory
  | [] => m
  | codept :: codepts => writeRunes (writeUtf8 m ptr codept) (ptr + runeSize) codepts

/-- The scan of `expand_ligature` for the pattern behind a replacement; `pattern`
holds the table words from `last_pattern_start` on. -/
def ligaturePattern (codept : Nat) : (pattern : List Nat) → List Nat → Option (List Nat)
  | _, [] => none
  | pattern, word :: words =>
      if word &&& ligReplacementCodeptMask ≠ 0 then
        if ligReplacementCodept word = codept then some pattern
        else ligaturePattern codept [] words
      else
        ligaturePattern codept (pattern ++ [word]) words

/-- The original pattern that produced a ligature. -/
def ShaperTables.ligatureLetters (tables : ShaperTables) (codept : Nat) : Option (List Nat) :=
  ligaturePattern codept [] tables.ligatureWords

/-- `expand_ligature`. -/
def ShaperTables.expandLigature (tables : ShaperTables) (m : Memory)
    (codept : Nat) (ptr : Int) : Bool × Memory :=
  match tables.ligatureLetters codept with
  | some pattern => (true, writeRunes m (ptr - runeSize * (pattern.length - 1)) pattern)
  | none => (false, m)

/-! ## Two-letter ligature tables

Every pattern of the generated table has two letters.  On such tables the flat
scans find whole records. -/

/-- `codept | (1 << 15)`, the form in which a replacement stands in the table. -/
def markedCodept (codept : Nat) : Nat :=
  codept ||| (1 <<< 15)

structure LigatureRecord where
  first : Nat
  second : Nat
  replacement : Nat
  deriving DecidableEq, Repr

namespace LigatureRecord

/-- The table words of a record: its letters, then the marked replacement. -/
def words (record : LigatureRecord) : List Nat :=
  [record.first, record.second, markedCodept record.replacement]

/-- The most significant bit is free in each field. -/
def Unmarked (record : LigatureRecord) : Prop :=
  record.first < 2 ^ 15 ∧ record.second < 2 ^ 15 ∧ record.replacement < 2 ^ 15

end LigatureRecord

/-- The replacement of a pair of letters, or zero. -/
def ligatureOf (records : List LigatureRecord) (first second : Nat) : Nat :=
  match records.find? fun record => record.first == first && record.second == second with
  | some record => record.replacement
  | none => 0

theorem and_mask_eq_zero_iff {word : Nat} :
    word &&& ligReplacementCodeptMask = 0 ↔ word.testBit 15 = false := by
  rw [ligReplacementCodeptMask, Nat.one_shiftLeft, Nat.and_two_pow]
  cases word.testBit 15 <;> simp

theorem and_mask_of_lt {word : Nat} (unmarked : word < 2 ^ 15) :
    word &&& ligReplacementCodeptMask = 0 :=
  and_mask_eq_zero_iff.mpr (Nat.testBit_lt_two_pow unmarked)

theorem markedCodept_and_mask (codept : Nat) :
    markedCodept codept &&& ligReplacementCodeptMask ≠ 0 := by
  rw [Ne, and_mask_eq_zero_iff, markedCodept, Nat.testBit_or, Nat.one_shiftLeft,
    Nat.testBit_two_pow_self]
  simp

theorem ligReplacementCodept_markedCodept {codept : Nat} (unmarked : codept < 2 ^ 15) :
    ligReplacementCodept (markedCodept codept) = codept := by
  have mask : (~~~(BitVec.ofNat 16 ligReplacementCodeptMask)).toNat = 2 ^ 15 - 1 := by
    decide
  rw [ligReplacementCodept, markedCodept, mask, Nat.and_two_pow_sub_one_eq_mod, Nat.one_shiftLeft,
    Nat.or_mod_two_pow, Nat.mod_self, Nat.or_zero, Nat.mod_eq_of_lt unmarked]

/-- Searching a two-letter pattern resynchronizes at every record end. -/
theorem ligatureSearch_records (pattern : Nat → Nat) {records : List LigatureRecord}
    (unmarked : ∀ record ∈ records, record.Unmarked) :
    ligatureSearch pattern 2 true 0 (records.flatMap LigatureRecord.words) =
      ligatureOf records (pattern 0) (pattern 1) := by
  induction records with
  | nil => rfl
  | cons record records ih =>
      obtain ⟨firstLt, secondLt, replacementLt⟩ := unmarked record (by simp)
      have rest := ih fun other member => unmarked other (by simp [member])
      have firstMask := and_mask_of_lt firstLt
      have secondMask := and_mask_of_lt secondLt
      have mark := markedCodept_and_mask record.replacement
      rw [List.flatMap_cons, LigatureRecord.words]
      by_cases firstEq : record.first = pattern 0
      · by_cases secondEq : record.second = pattern 1
        · -- Both letters match, and the index 2 is refused at the replacement.
          simp [ligatureSearch, ligatureOf, firstEq, secondEq, mark,
            ligReplacementCodept_markedCodept replacementLt]
        · simp [ligatureSearch, ligatureOf, firstEq, secondEq, secondMask, mark, rest]
      · simp [ligatureSearch, ligatureOf, firstEq, firstMask, secondMask, mark, rest]

theorem ligaturePattern_records (codept : Nat) {records : List LigatureRecord}
    (unmarked : ∀ record ∈ records, record.Unmarked) :
    ligaturePattern codept [] (records.flatMap LigatureRecord.words) =
      (records.find? fun record => record.replacement == codept).map
        fun record => [record.first, record.second] := by
  induction records with
  | nil => rfl
  | cons record records ih =>
      obtain ⟨firstLt, secondLt, replacementLt⟩ := unmarked record (by simp)
      have rest := ih fun other member => unmarked other (by simp [member])
      have firstMask := and_mask_of_lt firstLt
      have secondMask := and_mask_of_lt secondLt
      have mark := markedCodept_and_mask record.replacement
      rw [List.flatMap_cons, LigatureRecord.words]
      by_cases here : record.replacement = codept
      · subst here
        simp [ligaturePattern, firstMask, secondMask, mark,
          ligReplacementCodept_markedCodept replacementLt]
      · simp [ligaturePattern, firstMask, secondMask, mark,
          ligReplacementCodept_markedCodept replacementLt, here, rest]

end Elbbep
