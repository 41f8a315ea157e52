import Elbbep.ShapePass

/-!
# Contextual forms on text without marks

On a text without zero-width runes the one-pass shaper agrees with the usual
description of Arabic shaping: cut the text into letters and ligatures, and give
each of them the form that its two neighbours ask for.
-/

namespace Elbbep

open ByteMemory Utf8Encoding

/-- A rune, or a pair of runes that makes a ligature, with its true codepoint. -/
structure TextUnit where
  first : Option Char
  last : Char
  codept : Nat

namespace ShaperTables

variable (tables : ShaperTables)

/-- The text cut into units from left to right. -/
def units : List Char → List TextUnit
  | [] => []
  | [c] => [⟨none, c, runeValue c⟩]
  | c :: d :: rest =>
      if tables.ligature (runeValue c) (runeValue d) ≠ 0 then
        ⟨some c, d, tables.ligature (runeValue c) (runeValue d)⟩ :: units rest
      else ⟨none, c, runeValue c⟩ :: units (d :: rest)

def unitShapable (unit : TextUnit) : Bool :=
  (tables.findLutEntryByCodept unit.codept).isSome

/-- Shapable, and not of the kind whose medial and final deltas are equal but not zero. -/
def unitDualJoining (unit : TextUnit) : Bool :=
  match tables.findLutEntryByCodept unit.codept with
  | some entry =>
      !(entry.medialCodeptDelta == entry.finalCodeptDelta && entry.finalCodeptDelta != 0)
  | none => false

/-- The form of a unit between its neighbours. -/
def contextualForm (previous : Option TextUnit) (unit : TextUnit) (next : Option TextUnit) :
    LetterForm :=
  match previous.any tables.unitDualJoining,
      tables.unitDualJoining unit && next.any tables.unitShapable with
  | false, false => .isolated
  | false, true => .initial
  | true, true => .medial
  | true, false => .final

/-- The runes of a unit after shaping. -/
def shapedUnit (previous : Option TextUnit) (unit : TextUnit) (next : Option TextUnit) :
    List Char :=
  unit.first.toList.map (fun _ => placeholder) ++
    match tables.findLutEntryByCodept unit.codept with
    | some entry => [entry.formChar (tables.contextualForm previous unit next)]
    | none => [unit.last]

def shapedUnits : (previous : Option TextUnit) → List TextUnit → List Char
  | _, [] => []
  | previous, unit :: rest =>
      tables.shapedUnit previous unit rest.head? ++ shapedUnits (some unit) rest

/-- Shaping as contextual forms describe it. -/
def contextualShaping (chars : List Char) : List Char :=
  tables.shapedUnits none (tables.units chars)

end ShaperTables

/-! ## Units among marks

The pass looks over zero-width runes, which are units of their own. -/

namespace ShaperTables

/-- A rune of zero width. -/
def markUnit (unit : TextUnit) : Bool :=
  isZeroWidth unit.codept

variable (tables : ShaperTables)

/-- What comes behind a letter, as `following` sees it. -/
def unitsFollowing (rest : List TextUnit) : Following :=
  if (rest.find? fun unit => !markUnit unit).any tables.unitShapable then .letter
  else if rest.head?.any markUnit then .breakAfterMarks
  else .breakNow

/-- A unit in the form that `shape_text` writes. -/
def writtenUnit (previous : Option TextUnit) (unit : TextUnit) (rest : List TextUnit) :
    List Char :=
  unit.first.toList.map (fun _ => placeholder) ++
    match tables.findLutEntryByCodept unit.codept with
    | some entry =>
        [entry.formChar
          (entry.formIn (previous.any tables.unitDualJoining) (tables.unitsFollowing rest))]
    | none => [unit.last]

/-- All units as `shape_text` writes them; `previous` is the last unit that is no mark. -/
def writtenUnits : (previous : Option TextUnit) → List TextUnit → List Char
  | _, [] => []
  | previous, unit :: rest =>
      if markUnit unit then unit.last :: writtenUnits previous rest
      else tables.writtenUnit previous unit rest ++ writtenUnits (some unit) rest

/-- Ligatures begin with a letter, and are none themselves. -/
structure LigaturesLead : Prop where
  first : ∀ first second, tables.ligature first second ≠ 0 →
    (tables.findLutEntryByCodept first).isSome
  entry : ∀ first second, tables.ligature first second ≠ 0 →
    (tables.findLutEntryByCodept (tables.ligature first second)).isSome ∧
      isZeroWidth (tables.ligature first second) = false
  last : ∀ first second third, tables.ligature first second ≠ 0 →
    tables.ligature (tables.ligature first second) third = 0

/-- Marks begin no ligature in this text. -/
def MarksAlone (chars : List Char) : Prop :=
  ∀ c ∈ chars, isZeroWidth (runeValue c) = true → ∀ second, tables.ligature (runeValue c) second = 0

theorem MarksAlone.tail {tables : ShaperTables} {c : Char} {rest : List Char}
    (alone : tables.MarksAlone (c :: rest)) : tables.MarksAlone rest :=
  fun d member => alone d (List.mem_cons_of_mem c member)

variable {tables : ShaperTables}

theorem units_cons_alone {c : Char} {rest : List Char}
    (alone : tables.ligates (runeValue c) rest = false) :
    tables.units (c :: rest) = ⟨none, c, runeValue c⟩ :: tables.units rest := by
  cases rest with
  | nil => rfl
  | cons d rest => rw [units, if_neg (by simpa [ligates] using alone)]

theorem units_cons_ligates {c d : Char} {rest : List Char}
    (ligates : tables.ligature (runeValue c) (runeValue d) ≠ 0) :
    tables.units (c :: d :: rest) =
      ⟨some c, d, tables.ligature (runeValue c) (runeValue d)⟩ :: tables.units rest := by
  rw [units, if_pos ligates]

/-- The first unit of a text stands for its first rune in all that the pass looks ahead at. -/
theorem units_head (lead : tables.LigaturesLead) {c : Char} {rest : List Char}
    (alone : tables.MarksAlone (c :: rest)) :
    ∃ unit others, tables.units (c :: rest) = unit :: others ∧
      markUnit unit = isZeroWidth (runeValue c) ∧
      tables.unitShapable unit = (tables.findLutEntryByCodept (runeValue c)).isSome ∧
      (isZeroWidth (runeValue c) = true → others = tables.units rest) := by
  by_cases single : tables.ligates (runeValue c) rest = false
  · exact ⟨_, _, units_cons_alone single, rfl, rfl, fun _ => rfl⟩
  · cases rest with
    | nil => simp [ligates] at single
    | cons d rest =>
        have ligates : tables.ligature (runeValue c) (runeValue d) ≠ 0 := by
          simpa [ShaperTables.ligates] using single
        have wide : isZeroWidth (runeValue c) = false := by
          by_contra zeroWidth
          exact ligates (alone c (by simp) (by simpa using zeroWidth) _)
        refine ⟨_, _, units_cons_ligates ligates, ?_, ?_, by simp [wide]⟩
        · simp [markUnit, wide, (lead.entry _ _ ligates).2]
        · simp [unitShapable, (lead.entry _ _ ligates).1, lead.first _ _ ligates]

theorem wordGoesOn_eq_units (lead : tables.LigaturesLead) {rest : List Char}
    (alone : tables.MarksAlone rest) :
    tables.wordGoesOn rest =
      ((tables.units rest).find? fun unit => !markUnit unit).any tables.unitShapable := by
  induction rest with
  | nil => rfl
  | cons c rest ih =>
      obtain ⟨unit, others, unitsEq, mark, shapable, behind⟩ := units_head lead alone
      rw [wordGoesOn, unitsEq]
      by_cases zeroWidth : isZeroWidth (runeValue c) = true
      · have single : tables.ligates (runeValue c) rest = false := by
          cases rest <;> simp [ligates, alone c (by simp) zeroWidth]
        simp [single, zeroWidth, mark, behind zeroWidth, ih alone.tail]
      · have wide : isZeroWidth (runeValue c) = false := by simpa using zeroWidth
        have entry : tables.ligates (runeValue c) rest = true →
            (tables.findLutEntryByCodept (runeValue c)).isSome = true := by
          intro ligates
          cases rest with
          | nil => simp [ShaperTables.ligates] at ligates
          | cons d rest => exact lead.first _ _ (by simpa [ShaperTables.ligates] using ligates)
        simp only [wide, mark, List.find?_cons, Bool.not_false, Option.any_some, shapable]
        cases ligates : tables.ligates (runeValue c) rest with
        | false => simp
        | true => simp [entry ligates]

theorem following_eq_unitsFollowing (lead : tables.LigaturesLead) {rest : List Char}
    (alone : tables.MarksAlone rest) :
    tables.following rest = tables.unitsFollowing (tables.units rest) := by
  cases rest with
  | nil => rfl
  | cons c rest =>
      obtain ⟨unit, others, unitsEq, mark, shapable, -⟩ := units_head lead alone
      rw [following, wordGoesOn_eq_units lead alone, unitsFollowing, unitsEq]
      cases zeroWidth : isZeroWidth (runeValue c) with
      | true => simp [mark, zeroWidth]
      | false =>
          cases found : tables.findLutEntryByCodept (runeValue c) <;>
            simp [mark, zeroWidth, shapable, found]

/-- Shaping the runes behind a complete unit. -/
def shapeRest (tables : ShaperTables) (joined : Bool) : List Char → List Char
  | [] => []
  | c :: rest => tables.shapeFrom joined (runeValue c) c rest

theorem shapeFrom_complete {codept : Nat} {rest : List Char}
    (complete : tables.ligates codept rest = false) (joined : Bool) (c : Char) :
    tables.shapeFrom joined codept c rest =
      tables.shapedChar joined codept c rest ::
        tables.shapeRest (tables.joinsNext joined codept rest) rest := by
  cases rest with
  | nil => rfl
  | cons d rest =>
      rw [shapeFrom, if_neg (by simpa [ligates] using complete)]
      rfl

/-- Where the word ends at once, what is before does not matter. -/
theorem writtenUnits_previous {units : List TextUnit}
    (ends : tables.unitsFollowing units = .breakNow) (previous other : Option TextUnit) :
    tables.writtenUnits previous units = tables.writtenUnits other units := by
  cases units with
  | nil => rfl
  | cons unit rest =>
      unfold unitsFollowing at ends
      cases mark : markUnit unit with
      | true =>
          simp only [List.head?_cons, Option.any_some, mark, if_true] at ends
          split at ends <;> cases ends
      | false =>
          have none : tables.findLutEntryByCodept unit.codept = none := by
            simpa [mark, unitShapable] using ends
          simp [writtenUnits, writtenUnit, mark, none]

/-- A complete unit and what is behind it. -/
theorem shapeFrom_eq_of_unit (lead : tables.LigaturesLead) {rest : List Char}
    (alone : tables.MarksAlone rest) (previous : Option TextUnit) (unit : TextUnit)
    (single : markUnit unit = true → unit.first = none)
    (complete : tables.ligates unit.codept rest = false)
    (later : ∀ carried : Option TextUnit,
      tables.shapeRest (carried.any tables.unitDualJoining) rest =
        tables.writtenUnits carried (tables.units rest)) :
    unit.first.toList.map (fun _ => placeholder) ++
        tables.shapeFrom (previous.any tables.unitDualJoining) unit.codept unit.last rest =
      tables.writtenUnits previous (unit :: tables.units rest) := by
  have follows := following_eq_unitsFollowing lead alone
  rw [shapeFrom_complete complete, shapedChar, writtenUnits, writtenUnit, follows]
  by_cases mark : markUnit unit = true
  · have zeroWidth : isZeroWidth unit.codept = true := mark
    simp [mark, zeroWidth, joinsNext, single mark, later]
  · have wide : isZeroWidth unit.codept = false := by simpa [markUnit] using mark
    have carries : tables.shapeRest
          (tables.joinsNext (previous.any tables.unitDualJoining) unit.codept rest) rest =
        tables.writtenUnits (some unit) (tables.units rest) := by
      rw [joinsNext, wide, follows]
      by_cases ends : tables.unitsFollowing (tables.units rest) = .breakNow
      · rw [writtenUnits_previous ends (some unit) none, ← later none]
        cases tables.findLutEntryByCodept unit.codept <;> simp [ends]
      · rw [← later (some unit)]
        simp only [Option.any_some, unitDualJoining]
        cases tables.findLutEntryByCodept unit.codept <;>
          simp [ends, ShaperLUTEntry.hasNoMedialForm]
    rw [carries, wide, if_neg mark]
    cases tables.findLutEntryByCodept unit.codept <;> simp

/-- From any unit on, the pass writes these units. -/
theorem shapeRest_eq_writtenUnits (lead : tables.LigaturesLead) {chars : List Char}
    (alone : tables.MarksAlone chars) (previous : Option TextUnit) :
    tables.shapeRest (previous.any tables.unitDualJoining) chars =
      tables.writtenUnits previous (tables.units chars) := by
  induction chars using units.induct tables generalizing previous with
  | case1 => rfl
  | case2 c =>
      have nothing : tables.MarksAlone [] := by simp [MarksAlone]
      exact shapeFrom_eq_of_unit lead nothing previous ⟨none, c, runeValue c⟩ (fun _ => rfl) rfl
        (fun _ => rfl)
  | case3 c d rest ligates ih =>
      have complete : tables.ligates (tables.ligature (runeValue c) (runeValue d)) rest =
          false := by
        cases rest <;> simp [ShaperTables.ligates, lead.last _ _ _ ligates]
      rw [units_cons_ligates ligates, shapeRest, shapeFrom, if_pos ligates]
      exact shapeFrom_eq_of_unit lead alone.tail.tail previous
        ⟨some c, d, tables.ligature (runeValue c) (runeValue d)⟩
        (by simp [markUnit, (lead.entry _ _ ligates).2]) complete (ih alone.tail.tail)
  | case4 c d rest single ih =>
      have complete : tables.ligates (runeValue c) (d :: rest) = false := by
        simpa [ShaperTables.ligates] using single
      rw [units_cons_alone complete, shapeRest]
      exact shapeFrom_eq_of_unit lead alone.tail previous ⟨none, c, runeValue c⟩ (fun _ => rfl)
        complete (ih alone.tail)

theorem shapeChars_eq_writtenUnits (lead : tables.LigaturesLead) {chars : List Char}
    (alone : tables.MarksAlone chars) :
    tables.shapeChars chars = tables.writtenUnits none (tables.units chars) := by
  rw [← shapeRest_eq_writtenUnits lead alone]
  cases chars <;> rfl

/-! ## Text without marks -/

theorem formIn_eq_contextualForm {previous next : Option TextUnit} {unit : TextUnit}
    {entry : ShaperLUTEntry} (found : tables.findLutEntryByCodept unit.codept = some entry) :
    entry.formIn (previous.any tables.unitDualJoining)
        (if next.any tables.unitShapable then .letter else .breakNow) =
      tables.contextualForm previous unit next := by
  unfold ShaperLUTEntry.formIn contextualForm unitDualJoining
  rw [found]
  change _ = match _, !entry.hasNoMedialForm && _ with
    | false, false => _
    | false, true => _
    | true, true => _
    | true, false => _
  cases entry.hasNoMedialForm <;> cases previous.any _ <;> cases next.any _ <;> rfl

theorem unitsFollowing_of_wide {units : List TextUnit}
    (wide : ∀ unit ∈ units, markUnit unit = false) :
    tables.unitsFollowing units =
      if units.head?.any tables.unitShapable then .letter else .breakNow := by
  cases units with
  | nil => rfl
  | cons unit rest =>
      have here := wide unit (by simp)
      rw [unitsFollowing, List.find?_cons_of_pos (by simp [here]), List.head?_cons, Option.any_some,
        Option.any_some, here]
      rfl

theorem writtenUnits_eq_shapedUnits {units : List TextUnit}
    (wide : ∀ unit ∈ units, markUnit unit = false) (previous : Option TextUnit) :
    tables.writtenUnits previous units = tables.shapedUnits previous units := by
  induction units generalizing previous with
  | nil => rfl
  | cons unit rest ih =>
      have wideRest : ∀ other ∈ rest, markUnit other = false :=
        fun other member => wide other (by simp [member])
      rw [writtenUnits, wide unit (by simp), shapedUnits, ← ih wideRest, writtenUnit, shapedUnit,
        unitsFollowing_of_wide wideRest]
      cases found : tables.findLutEntryByCodept unit.codept with
      | none => simp
      | some entry => simp [formIn_eq_contextualForm found]

theorem markUnit_units (lead : tables.LigaturesLead) {chars : List Char}
    (wide : ∀ c ∈ chars, isZeroWidth (runeValue c) = false) :
    ∀ unit ∈ tables.units chars, markUnit unit = false := by
  induction chars using units.induct tables with
  | case1 => simp [units]
  | case2 c => simpa [units, markUnit] using wide
  | case3 c d rest ligates ih =>
      rw [units_cons_ligates ligates, List.forall_mem_cons]
      exact ⟨(lead.entry _ _ ligates).2, ih fun e member => wide e (by simp [member])⟩
  | case4 c d rest single ih =>
      rw [units, if_neg single, List.forall_mem_cons]
      exact ⟨wide c (by simp), ih fun e member => wide e (List.mem_cons_of_mem c member)⟩

/-- Without marks the pass computes the contextual shaping. -/
theorem shapeChars_eq_contextualShaping (lead : tables.LigaturesLead) {chars : List Char}
    (wide : ∀ c ∈ chars, isZeroWidth (runeValue c) = false) :
    tables.shapeChars chars = tables.contextualShaping chars := by
  have alone : tables.MarksAlone chars := fun c member zeroWidth => by
    simp [wide c member] at zeroWidth
  rw [shapeChars_eq_writtenUnits lead alone, contextualShaping,
    writtenUnits_eq_shapedUnits (markUnit_units lead wide)]

end ShaperTables

/-- Tables whose ligatures consist of table letters. -/
theorem RuntimeTables.ligaturesLead {forms : FormsTable} {packed : PackState}
    {pairs : List (CharacterForms × ShaperLUTEntry)} {tables : ShaperTables}
    (runtime : RuntimeTables forms packed pairs tables)
    (ligaturesOfLetters : forms.LigaturesOfLetters) : tables.LigaturesLead where
  first first second ligates := by
    obtain ⟨pair, member, a, b, key, rfl, -⟩ := runtime.exists_pair_of_ligature ligates
    have letter := ligaturesOfLetters _ (runtime.item_mem member) a (by simp [key])
    obtain ⟨item, inItems, itemKey⟩ := List.mem_map.mp letter
    obtain ⟨entry, inPairs⟩ := runtime.exists_pair inItems
    rw [← runtime.done.letter _ inPairs a itemKey, runtime.findLutEntryByCodept_pair inPairs]
    rfl
  entry := runtime.sound.ligature_entry
  last _ _ _ ligates := runtime.ligature_ligature ligates

/-- On a text of the basic plane without zero-width runes, `shape_text` gives
every unit its contextual form and leaves every other rune as it is. -/
theorem shapeText_contextual {unicodedataName : Char → Option String} {forms : FormsTable}
    (ligaturesOfLetters : forms.LigaturesOfLetters) {tables : ShaperTables}
    (run : generateTables unicodedataName forms.items = .ok tables)
    {m : Memory} {text : Int} {chars : List Char} (stands : TextAt m text chars)
    (plane : ∀ c ∈ chars, c ≠ '\x00' ∧ c.toNat < 0x10000)
    (wide : ∀ c ∈ chars, isZeroWidth c.toNat = false) :
    ∃ after, shapeText tables m text = .ok after ∧
      TextAt after text (tables.contextualShaping chars) ∧
      RuneWrites text (chars.map Char.utf8Size) m after := by
  obtain ⟨packed, pairs, -, runtime, -⟩ := generateTables_ok run
  obtain ⟨after, shapeRun, shaped, writes⟩ :=
    shapeText_spec runtime.sound (runtime.shapable plane) stands
  have wideRunes : ∀ c ∈ chars, isZeroWidth (runeValue c) = false := by
    intro c member
    rw [runeValue_of_lt (plane c member).2]
    exact wide c member
  have agree := ShaperTables.shapeChars_eq_contextualShaping
    (runtime.ligaturesLead ligaturesOfLetters) wideRunes
  exact ⟨after, shapeRun, agree ▸ shaped, writes⟩

theorem shapeText_contextual_lamAlef :
    ∃ after, shapeText lamAlefTables (.ofBytes 0 (encode ['ل', 'ل', 'ا', ' ', 'ل'] ++ [0])) 0 =
        .ok after ∧
      TextAt after 0 (lamAlefTables.contextualShaping ['ل', 'ل', 'ا', ' ', 'ل']) ∧
      RuneWrites 0 (['ل', 'ل', 'ا', ' ', 'ل'].map Char.utf8Size)
        (.ofBytes 0 (encode ['ل', 'ل', 'ا', ' ', 'ل'] ++ [0])) after :=
  shapeText_contextual (by decide) generateTables_lamAlefForms (textAt_ofBytes 0 _)
    (by decide) (by decide)

end Elbbep
