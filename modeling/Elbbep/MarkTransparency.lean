import Elbbep.ContextualForms

/-!
# Marks and shaping

Zero-width marks should not change the forms of the letters around them.  The
shaper handles a mark by committing to a joined form and correcting it when the
word turns out to end behind the marks.  The correction writes the final form
whether or not anything joins the letter from the left.  This file states when
marks are transparent, and proves that this correction is the only obstacle.
-/

namespace Elbbep

open ByteMemory Utf8Encoding

/-- A rune of zero width. -/
def isMark (c : Char) : Bool :=
  isZeroWidth (runeValue c)

def withoutMarks (chars : List Char) : List Char :=
  chars.filter fun c => !isMark c

/-- The runes of `shaped` at the positions where `chars` has no mark. -/
def dropMarks (chars shaped : List Char) : List Char :=
  ((chars.zip shaped).filter fun position => !isMark position.1).map Prod.snd

theorem withoutMarks_cons (c : Char) (rest : List Char) :
    withoutMarks (c :: rest) = if isMark c then withoutMarks rest else c :: withoutMarks rest := by
  cases mark : isMark c <;> simp [withoutMarks, mark]

/-- Deleting the marks brings no two letters of a ligature together. -/
def NoNewLigature (tables : ShaperTables) (chars : List Char) : Prop :=
  ∀ before a marks b after, chars = before ++ a :: (marks ++ b :: after) → marks ≠ [] →
    isMark a = false → isMark b = false → (∀ c ∈ marks, isMark c = true) →
      tables.ligature (runeValue a) (runeValue b) = 0

/-- `shape_text` turns the text in memory into `shaped`. -/
def ShapesTo (tables : ShaperTables) (m : Memory) (text : Int) (shaped : List Char) : Prop :=
  ∃ after, shapeText tables m text = .ok after ∧ TextAt after text shaped ∧
    ∀ c ∈ shaped, c ≠ '\x00'

/-- Marks stay where they are, and the other runes are shaped as they are in `plain`,
which holds the text without its marks. -/
def TransparentMarks (tables : ShaperTables) (m plain : Memory) (text : Int)
    (chars : List Char) : Prop :=
  ∃ shaped, ShapesTo tables m text shaped ∧ shaped.length = chars.length ∧
    (∀ (position : Nat) (c : Char), chars[position]? = some c → isMark c = true →
      shaped[position]? = some c) ∧
    ShapesTo tables plain text (dropMarks chars shaped)

/-- Marks stay in place, and what remains without them is `kept`. -/
structure KeepsMarks (chars shaped kept : List Char) : Prop where
  dropped : dropMarks chars shaped = kept
  marks : ∀ (position : Nat) (c : Char), chars[position]? = some c → isMark c = true →
    shaped[position]? = some c

namespace KeepsMarks

variable {chars shaped kept : List Char} (keeps : KeepsMarks chars shaped kept) {c : Char}

include keeps

theorem cons_mark (mark : isMark c = true) : KeepsMarks (c :: chars) (c :: shaped) kept := by
  refine ⟨by simpa [dropMarks, mark] using keeps.dropped, fun position d here isMark => ?_⟩
  cases position with
  | zero => exact here
  | succ position => exact keeps.marks position d here isMark

theorem cons_letter (letter : isMark c = false) (x : Char) :
    KeepsMarks (c :: chars) (x :: shaped) (x :: kept) := by
  refine ⟨by simpa [dropMarks, letter] using keeps.dropped, fun position d here isMark => ?_⟩
  cases position with
  | zero =>
      obtain rfl : c = d := by simpa using here
      simp [letter] at isMark
  | succ position => exact keeps.marks position d here isMark

end KeepsMarks

namespace ShaperTables

variable (tables : ShaperTables)

/-- A unit with different isolated, medial and final forms that nothing joins
from the left, with marks and then the end of the word behind it. -/
def strandedUnit (previous : Option TextUnit) (unit : TextUnit) (rest : List TextUnit) : Bool :=
  (match tables.findLutEntryByCodept unit.codept with
    | some entry =>
        entry.finalCodeptDelta != 0 && entry.medialCodeptDelta != entry.finalCodeptDelta
    | none => false) &&
    !previous.any tables.unitDualJoining && rest.head?.any markUnit &&
    !(rest.find? fun other => !markUnit other).any tables.unitShapable

/-- No unit is stranded; `previous` is the last unit that is no mark. -/
def noStrandedUnit : (previous : Option TextUnit) → List TextUnit → Bool
  | _, [] => true
  | previous, unit :: rest =>
      if markUnit unit then noStrandedUnit previous rest
      else !tables.strandedUnit previous unit rest && noStrandedUnit (some unit) rest

/-- What the pass writes, without the marks. -/
def keptUnits : (previous : Option TextUnit) → List TextUnit → List Char
  | _, [] => []
  | previous, unit :: rest =>
      if markUnit unit then keptUnits previous rest
      else tables.writtenUnit previous unit rest ++ keptUnits (some unit) rest

variable {tables : ShaperTables}

theorem formChar_final_eq_iff {entry : ShaperLUTEntry} (twoByte : entry.TwoByteForms) :
    entry.formChar .final = entry.formChar .isolated ↔ entry.finalCodeptDelta = 0 := by
  have isolated := twoByte .isolated
  have final := twoByte .final
  rw [← Char.toNat_inj, twoByte.formChar_toNat, twoByte.formChar_toNat]
  simp only [ShaperLUTEntry.formCodept, ShaperLUTEntry.delta] at isolated final ⊢
  omega

/-- Marks before the end of a word make a difference where nothing joins from the left, and the
isolated, medial and final forms are different. -/
theorem formIn_breakAfterMarks_iff {entry : ShaperLUTEntry} (twoByte : entry.TwoByteForms)
    (joined : Bool) :
    entry.formChar (entry.formIn joined .breakAfterMarks) =
        entry.formChar (entry.formIn joined .breakNow) ↔
      ((entry.finalCodeptDelta != 0 && entry.medialCodeptDelta != entry.finalCodeptDelta) &&
        !joined) = false := by
  unfold ShaperLUTEntry.formIn
  cases noMedial : entry.hasNoMedialForm with
  | true =>
      -- Such a letter ends its word in the same form, with or without marks.
      rw [ShaperLUTEntry.hasNoMedialForm, Bool.and_eq_true, beq_iff_eq] at noMedial
      simp [noMedial.1]
  | false =>
      cases joined with
      | true => simp
      | false =>
          have final := formChar_final_eq_iff twoByte
          rw [ShaperLUTEntry.hasNoMedialForm, Bool.and_eq_false_iff] at noMedial
          simp only [beq_eq_false_iff_ne, bne_eq_false_iff_eq] at noMedial
          simp only [Bool.false_eq_true, if_false, final, Bool.not_false, Bool.and_true,
            Bool.and_eq_false_iff, bne_eq_false_iff_eq]
          tauto

/-- The corrected form is the contextual one unless the unit is stranded. -/
theorem writtenUnit_eq_shapedUnit_iff (sound : tables.Sound) (previous : Option TextUnit)
    (unit : TextUnit) (rest : List TextUnit) :
    tables.writtenUnit previous unit rest =
        tables.shapedUnit previous unit (rest.find? fun other => !markUnit other) ↔
      tables.strandedUnit previous unit rest = false := by
  unfold writtenUnit shapedUnit strandedUnit
  cases found : tables.findLutEntryByCodept unit.codept with
  | none => simp
  | some entry =>
      simp only [List.append_cancel_left_eq, List.cons.injEq, and_true,
        ← formIn_eq_contextualForm found, unitsFollowing]
      cases (rest.find? fun other => !markUnit other).any tables.unitShapable with
      | true => simp
      | false =>
          cases rest.head?.any markUnit with
          | true =>
              simpa using formIn_breakAfterMarks_iff (sound.form_two_byte _ _ found)
                (previous.any tables.unitDualJoining)
          | false => simp

theorem keptUnits_eq_shapedUnits_iff (sound : tables.Sound) (previous : Option TextUnit)
    (units : List TextUnit) :
    tables.keptUnits previous units =
        tables.shapedUnits previous (units.filter fun unit => !markUnit unit) ↔
      tables.noStrandedUnit previous units = true := by
  induction units generalizing previous with
  | nil => simp [keptUnits, shapedUnits, noStrandedUnit]
  | cons unit rest ih =>
      rw [keptUnits, noStrandedUnit]
      cases mark : markUnit unit with
      | true => simpa [mark] using ih previous
      | false =>
          have here := writtenUnit_eq_shapedUnit_iff sound previous unit rest
          have length : (tables.writtenUnit previous unit rest).length =
              (tables.shapedUnit previous unit
                (rest.find? fun other => !markUnit other)).length := by
            unfold writtenUnit shapedUnit
            cases tables.findLutEntryByCodept unit.codept <;> simp
          rw [List.filter_cons_of_pos (by simp [mark]), shapedUnits, List.head?_filter]
          simp only [Bool.false_eq_true, if_false, Bool.and_eq_true, Bool.not_eq_true', ← ih,
            ← here]
          constructor
          · exact fun same => List.append_inj same length
          · rintro ⟨same, later⟩
            rw [same, later]

theorem markUnit_single (c : Char) : markUnit ⟨none, c, runeValue c⟩ = isMark c := rfl

/-- Ligatures are made of runes that are no marks. -/
def WideLigatures (tables : ShaperTables) : Prop :=
  ∀ first second, tables.ligature first second ≠ 0 →
    isZeroWidth first = false ∧ isZeroWidth second = false

theorem WideLigatures.marksAlone (wide : tables.WideLigatures) (chars : List Char) :
    tables.MarksAlone chars := by
  intro c _ zeroWidth second
  by_contra ligates
  simp [(wide _ _ ligates).1] at zeroWidth

/-- Deleting the marks of a text deletes the marks among its units. -/
theorem units_withoutMarks (wide : tables.WideLigatures) (lead : tables.LigaturesLead)
    {chars : List Char} (apart : NoNewLigature tables chars) :
    tables.units (withoutMarks chars) =
      (tables.units chars).filter fun unit => !markUnit unit := by
  have tail {c : Char} {rest : List Char} (apart : NoNewLigature tables (c :: rest)) :
      NoNewLigature tables rest :=
    fun before a marks b after eq => apart (c :: before) a marks b after (by simp [eq])
  induction chars using units.induct tables with
  | case1 => rfl
  | case2 c => cases mark : isMark c <;> simp [withoutMarks, units, markUnit_single, mark]
  | case3 c d rest ligates ih =>
      obtain ⟨firstWide, secondWide⟩ := wide _ _ ligates
      have later := ih (tail (tail apart))
      have entryWide := (lead.entry _ _ ligates).2
      rw [units_cons_ligates ligates, List.filter_cons_of_pos (by simp [markUnit, entryWide]),
        ← later, withoutMarks_cons, withoutMarks_cons, isMark, isMark, firstWide, secondWide]
      exact units_cons_ligates ligates
  | case4 c d rest single ih =>
      have later := ih (tail apart)
      rw [units_cons_alone (by simpa [ligates] using single), withoutMarks_cons, List.filter_cons,
        markUnit_single, ← later]
      cases letter : isMark c with
      | true => rfl
      | false =>
          apply units_cons_alone
          rw [withoutMarks]
          cases kept : (d :: rest).filter fun e => !isMark e with
          | nil => rfl
          | cons e after =>
              obtain ⟨marks, behind, split, areMarks, isLetter, -⟩ :=
                List.filter_eq_cons_iff.mp kept
              -- The next letter is either adjacent already or behind marks.
              cases marks with
              | nil =>
                  obtain ⟨rfl, -⟩ := List.cons.inj split
                  simpa [ligates] using single
              | cons mark marks =>
                  have none := apart [] c (mark :: marks) e behind (by simp [split]) (by simp)
                    letter (by simpa using isLetter) (by simpa using areMarks)
                  simp [ligates, none]

/-- Every unit is written with as many runes as it has. -/
theorem writtenUnit_single (c : Char) (previous : Option TextUnit) (rest : List TextUnit) :
    ∃ x, tables.writtenUnit previous ⟨none, c, runeValue c⟩ rest = [x] := by
  unfold writtenUnit
  cases tables.findLutEntryByCodept (runeValue c) <;> simp

theorem writtenUnit_pair (c d : Char) (codept : Nat) (previous : Option TextUnit)
    (rest : List TextUnit) :
    ∃ x, tables.writtenUnit previous ⟨some c, d, codept⟩ rest = [placeholder, x] := by
  unfold writtenUnit
  cases tables.findLutEntryByCodept codept <;> simp

theorem keepsMarks_cons_single (c : Char) {rest : List Char}
    (alone : tables.ligates (runeValue c) rest = false) (previous : Option TextUnit)
    (later : ∀ previous, KeepsMarks rest (tables.writtenUnits previous (tables.units rest))
      (tables.keptUnits previous (tables.units rest))) :
    KeepsMarks (c :: rest) (tables.writtenUnits previous (tables.units (c :: rest)))
      (tables.keptUnits previous (tables.units (c :: rest))) := by
  obtain ⟨x, written⟩ := writtenUnit_single c previous (tables.units rest)
  rw [units_cons_alone alone, writtenUnits, keptUnits, markUnit_single, written]
  cases mark : isMark c with
  | true => exact (later previous).cons_mark mark
  | false => exact (later _).cons_letter mark x

/-- The pass keeps marks, and writes the other units around them. -/
theorem keepsMarks_writtenUnits (wide : tables.WideLigatures) (lead : tables.LigaturesLead)
    (chars : List Char) (previous : Option TextUnit) :
    KeepsMarks chars (tables.writtenUnits previous (tables.units chars))
      (tables.keptUnits previous (tables.units chars)) := by
  induction chars using units.induct tables generalizing previous with
  | case1 => exact ⟨rfl, by simp⟩
  | case2 c => exact keepsMarks_cons_single c rfl previous fun _ => ⟨rfl, by simp⟩
  | case3 c d rest ligates ih =>
      obtain ⟨firstWide, secondWide⟩ := wide _ _ ligates
      have entryWide := (lead.entry _ _ ligates).2
      obtain ⟨x, written⟩ := writtenUnit_pair c d (tables.ligature (runeValue c) (runeValue d))
        previous (tables.units rest)
      rw [units_cons_ligates ligates, writtenUnits, keptUnits, markUnit, entryWide, written]
      exact ((ih _).cons_letter secondWide x).cons_letter firstWide placeholder
  | case4 c d rest single ih =>
      exact keepsMarks_cons_single c (by simpa [ligates] using single) previous ih

/-- Marks are transparent exactly when no unit is stranded. -/
theorem dropMarks_shapeChars_iff (sound : tables.Sound) (wide : tables.WideLigatures)
    (lead : tables.LigaturesLead) {chars : List Char} (apart : NoNewLigature tables chars) :
    dropMarks chars (tables.shapeChars chars) = tables.shapeChars (withoutMarks chars) ↔
      tables.noStrandedUnit none (tables.units chars) = true := by
  have wideRest : ∀ c ∈ withoutMarks chars, isZeroWidth (runeValue c) = false := by
    intro c member
    simpa [isMark] using (List.mem_filter.mp member).2
  rw [shapeChars_eq_writtenUnits lead (wide.marksAlone chars),
    (keepsMarks_writtenUnits wide lead chars none).dropped,
    shapeChars_eq_contextualShaping lead wideRest, contextualShaping,
    units_withoutMarks wide lead apart]
  exact keptUnits_eq_shapedUnits_iff sound none _

end ShaperTables

namespace RuntimeTables

variable {forms : FormsTable} {packed : PackState}
  {pairs : List (CharacterForms × ShaperLUTEntry)} {tables : ShaperTables}
  (runtime : RuntimeTables forms packed pairs tables)

include runtime

theorem wideLigatures (noZeroWidth : forms.NoZeroWidth) : tables.WideLigatures := by
  intro first second ligates
  obtain ⟨pair, member, a, b, key, rfl, rfl, -⟩ := runtime.exists_pair_of_ligature ligates
  have wide := noZeroWidth _ (runtime.item_mem member)
  exact ⟨wide a (by simp [key]), wide b (by simp [key])⟩

theorem shapesTo_iff {m : Memory} {text : Int} {chars : List Char} (stands : TextAt m text chars)
    (plane : ∀ c ∈ chars, c ≠ '\x00' ∧ c.toNat < 0x10000) (shaped : List Char) :
    ShapesTo tables m text shaped ↔ shaped = tables.shapeChars chars := by
  obtain ⟨after, run, standsAfter, -⟩ :=
    shapeText_spec runtime.sound (runtime.shapable plane) stands
  have nonzero : ∀ c ∈ tables.shapeChars chars, c ≠ '\x00' := by
    intro c member
    rcases mem_shapeChars runtime.sound member with original | two
    · exact (plane c original).1
    · rintro rfl
      exact absurd two (by decide)
  constructor
  · rintro ⟨other, otherRun, standsOther, otherNonzero⟩
    obtain rfl := Except.ok.inj (run.symm.trans otherRun)
    exact standsOther.unique standsAfter otherNonzero nonzero
  · rintro rfl
    exact ⟨after, run, standsAfter, nonzero⟩

theorem transparentMarks_iff (ligaturesOfLetters : forms.LigaturesOfLetters)
    (noZeroWidth : forms.NoZeroWidth) {m plain : Memory} {text : Int} {chars : List Char}
    (stands : TextAt m text chars) (standsPlain : TextAt plain text (withoutMarks chars))
    (plane : ∀ c ∈ chars, c ≠ '\x00' ∧ c.toNat < 0x10000)
    (apart : NoNewLigature tables chars) :
    TransparentMarks tables m plain text chars ↔
      tables.noStrandedUnit none (tables.units chars) = true := by
  have lead := runtime.ligaturesLead ligaturesOfLetters
  have wide := runtime.wideLigatures noZeroWidth
  have plainPlane : ∀ c ∈ withoutMarks chars, c ≠ '\x00' ∧ c.toNat < 0x10000 :=
    fun c member => plane c (List.mem_of_mem_filter member)
  have lengthEq : (tables.shapeChars chars).length = chars.length := by
    simpa using congrArg List.length (shapeChars_sizes runtime.sound (runtime.shapable plane))
  rw [← tables.dropMarks_shapeChars_iff runtime.sound wide lead apart]
  constructor
  · rintro ⟨shaped, shapes, -, -, plainShapes⟩
    obtain rfl := (runtime.shapesTo_iff stands plane shaped).mp shapes
    exact (runtime.shapesTo_iff standsPlain plainPlane _).mp plainShapes
  · intro same
    refine ⟨_, (runtime.shapesTo_iff stands plane _).mpr rfl, lengthEq, ?_,
      (runtime.shapesTo_iff standsPlain plainPlane _).mpr same⟩
    rw [tables.shapeChars_eq_writtenUnits lead (wide.marksAlone chars)]
    exact (tables.keepsMarks_writtenUnits wide lead chars none).marks

end RuntimeTables

/-- Shaping looks through marks if and only if no letter whose final form differs
from its isolated form stands unjoined before marks that end its word. -/
theorem shapeText_transparentMarks_iff {unicodedataName : Char → Option String}
    {forms : FormsTable} (ligaturesOfLetters : forms.LigaturesOfLetters)
    (noZeroWidth : forms.NoZeroWidth) {tables : ShaperTables}
    (run : generateTables unicodedataName forms.items = .ok tables)
    {m plain : Memory} {text : Int} {chars : List Char}
    (stands : TextAt m text chars) (standsPlain : TextAt plain text (withoutMarks chars))
    (plane : ∀ c ∈ chars, c ≠ '\x00' ∧ c.toNat < 0x10000)
    (apart : NoNewLigature tables chars) :
    TransparentMarks tables m plain text chars ↔
      tables.noStrandedUnit none (tables.units chars) = true := by
  obtain ⟨packed, pairs, -, runtime, -⟩ := generateTables_ok run
  exact runtime.transparentMarks_iff ligaturesOfLetters noZeroWidth stands standsPlain plane apart

theorem noNewLigature_of_forall {tables : ShaperTables} {chars : List Char}
    (none : ∀ a ∈ chars, ∀ b ∈ chars, tables.ligature (runeValue a) (runeValue b) = 0) :
    NoNewLigature tables chars := by
  rintro before a marks b after rfl - - - -
  exact none a (by simp) b (by simp)

/-- A word whose last letter carries a mark keeps its forms. -/
theorem shapeText_transparentMarks_lamLam :
    TransparentMarks lamAlefTables (.ofBytes 0 (encode ['ل', 'ل', '\u064B', '!'] ++ [0]))
      (.ofBytes 0 (encode ['ل', 'ل', '!'] ++ [0])) 0 ['ل', 'ل', '\u064B', '!'] :=
  (shapeText_transparentMarks_iff (by decide) (by decide) generateTables_lamAlefForms
    (textAt_ofBytes 0 _) (textAt_ofBytes 0 _) (by decide)
    (noNewLigature_of_forall (by decide))).mpr (by decide)

/-- A single letter with a mark is written in its final form. -/
theorem not_transparentMarks_lam :
    NoNewLigature lamAlefTables ['ل', '\u064B'] ∧
      ¬ TransparentMarks lamAlefTables (.ofBytes 0 (encode ['ل', '\u064B'] ++ [0]))
        (.ofBytes 0 (encode ['ل'] ++ [0])) 0 ['ل', '\u064B'] := by
  have apart : NoNewLigature lamAlefTables ['ل', '\u064B'] :=
    noNewLigature_of_forall (by decide)
  obtain ⟨packed, pairs, -, runtime, -⟩ := generateTables_ok generateTables_lamAlefForms
  refine ⟨apart, fun transparent => ?_⟩
  have unstranded := (runtime.transparentMarks_iff (by decide) (by decide) (textAt_ofBytes 0 _)
    (textAt_ofBytes 0 _) (by decide) apart).mp transparent
  revert unstranded
  decide

end Elbbep
