import Elbbep.BaseCodepoints
import Elbbep.ComposedFontRoom
import Elbbep.ShapeRoundTrip

/-!
# What is seen of a text

A text is shaped with tables that `text_shaper.py` generates, and drawn with a font that is
composed with the map of the same run.  Then each letter is seen with the glyph that `hb-shape`
gives for it between kashidas, where its neighbours join it.  The codepoints that stand for the
forms do not matter.  Which letters join is told from their glyphs, not from the records of the
runtime.
-/

namespace Elbbep

open ByteMemory Utf8Encoding PythonStruct PfoMerge FontCompose

/-! ## Shaping as the forms table describes it -/

/-- What is seen in the place of a rune: nothing, a form of a key, or the rune. -/
inductive Seen
  | nothing
  | form (key : List Char) (form : LetterForm)
  | rune (c : Char)
  deriving DecidableEq, Repr

/-- A rune of zero width is a key of its own. -/
def markKey : List Char → Bool
  | [c] => isZeroWidth c.toNat
  | _ => false

namespace Seen

variable (items : List CharacterForms)

/-- The text cut into keys from left to right. -/
def keysOf : List Char → List (List Char)
  | [] => []
  | [c] => [[c]]
  | c :: d :: rest =>
      if (items.lookup [c, d]).isSome then [c, d] :: keysOf rest else [c] :: keysOf (d :: rest)

/-- A key is joined to the letter behind it if that makes a difference to its glyph.  Kashida is
there to join. -/
def joinsNext (key : List Char) : Bool :=
  key == [kashida] ||
    match items.lookup key with
    | some [isolated, initial, medial, final] => initial != isolated || medial != final
    | _ => false

/-- A key is joined to the letter before it if that makes a difference to its glyph. -/
def joinsPrevious (key : List Char) : Bool :=
  key == [kashida] ||
    match items.lookup key with
    | some [isolated, initial, medial, final] => final != isolated || medial != initial
    | _ => false

def joins (first second : List Char) : Bool :=
  joinsNext items first && joinsPrevious items second

/-- The form of a key between the letters around it. -/
def formOf (previous : Option (List Char)) (key : List Char) (next : Option (List Char)) :
    LetterForm :=
  match previous.any fun before => joins items before key, next.any (joins items key) with
  | false, false => .isolated
  | false, true => .initial
  | true, true => .medial
  | true, false => .final

/-- A key is seen in the place of its last rune. -/
def ofKey (previous : Option (List Char)) (key : List Char) (rest : List (List Char)) : List Seen :=
  key.dropLast.map (fun _ => nothing) ++
    if (items.lookup key).isSome then
      [form key (formOf items previous key (rest.find? fun key => !markKey key))]
    else key.getLast?.toList.map rune

/-- What is to be seen of the keys; `previous` is the last one that is no mark. -/
def ofKeys : (previous : Option (List Char)) → List (List Char) → List Seen
  | _, [] => []
  | previous, key :: rest =>
      if markKey key then nothing :: ofKeys previous rest
      else ofKey items previous key rest ++ ofKeys (some key) rest

/-- What is to be seen of a text. -/
def ofText (chars : List Char) : List Seen :=
  ofKeys items none (keysOf items chars)

end Seen

/-- A letter with the same glyph in the middle and at the end of a word, but not alone, has the
same glyph at the start of a word and alone. -/
def restarts : List Nat → Bool
  | [isolated, initial, medial, final] =>
      !(medial == final && final != isolated) || initial == isolated
  | _ => false

/-- The glyphs of the forms tell how letters join.  All letters but hamza are joined to the letter
before them, and those that look the same in the middle and at the end of a word are joined to none
behind them. -/
def FormsTell (items : List CharacterForms) : Prop :=
  ∀ item ∈ items, item.1 = [hamza] ∨
    Seen.joinsPrevious items item.1 = true ∧ restarts item.2 = true

instance (items : List CharacterForms) : Decidable (FormsTell items) :=
  inferInstanceAs (Decidable (∀ item ∈ items, _))

/-! ## Keys and units -/

theorem lookup_eq_some_of_mem {α β : Type} [BEq α] [LawfulBEq α] {items : List (α × β)}
    (distinct : (items.map Prod.fst).Nodup) {item : α × β} (member : item ∈ items) :
    items.lookup item.1 = some item.2 := by
  obtain ⟨before, behind, rfl⟩ := List.append_of_mem member
  refine List.lookup_eq_some_iff.mpr ⟨before, behind, rfl, fun other inBefore => ?_⟩
  rw [List.map_append, List.map_cons] at distinct
  have apart := List.disjoint_of_nodup_append distinct (List.mem_map_of_mem inBefore)
  have different : item.1 ≠ other.1 := fun same => apart (List.mem_cons.mpr (Or.inl same.symm))
  simpa using different

namespace RuntimeTables

variable {forms : FormsTable} {packed : PackState}
  {pairs : List (CharacterForms × ShaperLUTEntry)} {tables : ShaperTables}

/-- A unit reads a key of the text. -/
structure UnitOf (pairs : List (CharacterForms × ShaperLUTEntry)) (tables : ShaperTables)
    (key : List Char) (unit : TextUnit) : Prop where
  runes : key = unit.first.toList ++ [unit.last]
  mark : markKey key = ShaperTables.markUnit unit
  isHamza : key = [hamza] ↔ ShaperTables.nonJoining unit = true
  entry : ∀ entry, tables.findLutEntryByCodept unit.codept = some entry ↔
    ∃ pair ∈ pairs, pair.1.1 = key ∧ pair.2 = entry

/-- A mark is a rune of zero width. -/
theorem UnitOf.last_zeroWidth {key : List Char} {unit : TextUnit}
    (reads : UnitOf pairs tables key unit) (mark : ShaperTables.markUnit unit = true) :
    isZeroWidth unit.last.toNat = true := by
  have isMark : markKey key = true := reads.mark.trans mark
  rw [reads.runes] at isMark
  cases first : unit.first with
  | none =>
      rw [first] at isMark
      exact isMark
  | some c =>
      rw [first] at isMark
      cases isMark

variable (generated : GeneratedTables forms packed pairs tables)

include generated

theorem lookup_pair {pair : CharacterForms × ShaperLUTEntry} (member : pair ∈ pairs) :
    forms.items.lookup pair.1.1 = some pair.1.2 :=
  lookup_eq_some_of_mem forms.keys_nodup (generated.item_mem member)

/-- A rune of the text is read as itself. -/
theorem unitOf_rune {c : Char} (unrecycled : Unrecycled tables c) :
    UnitOf pairs tables [c] ⟨none, c, runeValue c⟩ where
  runes := rfl
  mark := by
    rw [markKey, ShaperTables.markUnit, runeValue_of_lt unrecycled.plane]
  isHamza := by
    rw [List.singleton_inj, ShaperTables.nonJoining, runeValue_of_lt unrecycled.plane, beq_iff_eq,
      Char.toNat_inj]
  entry := by
    intro entry
    constructor
    · intro found
      obtain ⟨pair, member, entryEq, key⟩ := generated.key_of_find unrecycled found
      exact ⟨pair, member, key, entryEq⟩
    · rintro ⟨pair, member, key, rfl⟩
      have trueEq := generated.done.letter pair member c key
      rw [runeValue_of_lt unrecycled.plane, ← trueEq]
      exact generated.findLutEntryByCodept_pair member

theorem ligature_of_key {pair : CharacterForms × ShaperLUTEntry} (member : pair ∈ pairs)
    {a b : Char} (key : pair.1.1 = [a, b]) :
    tables.ligature a.toNat b.toNat = pair.2.trueCodept ∧
      pair.2.trueCodept ∈ scratchCodepoints := by
  have record : (⟨a.toNat, b.toNat, pair.2.trueCodept⟩ : LigatureRecord) ∈ ligaturesOf pairs :=
    List.mem_filterMap.mpr ⟨pair, member, by rw [key]; rfl⟩
  refine ⟨?_, generated.replacement_scratch record⟩
  rw [ShaperTables.ligature, generated.findLigatureByCodepts_eq, ligatureOf,
    find?_eq_some_of_unique record (by simp [codeptBuffer])]
  intro other inRecords same
  obtain ⟨otherPair, otherMember, a', b', otherKey, rfl⟩ := mem_ligaturesOf inRecords
  simp only [codeptBuffer, Bool.and_eq_true, beq_iff_eq, Char.toNat_inj] at same
  obtain ⟨rfl, rfl⟩ := same
  rw [generated.pair_eq otherMember member (otherKey.trans key.symm)]

/-- Two runes ligate exactly if they are a key. -/
theorem ligature_ne_zero_iff {c d : Char} (first : Unrecycled tables c)
    (second : Unrecycled tables d) : tables.ligature (runeValue c) (runeValue d) ≠ 0 ↔
      (forms.items.lookup [c, d]).isSome = true := by
  rw [runeValue_of_lt first.plane, runeValue_of_lt second.plane]
  constructor
  · intro ligates
    obtain ⟨pair, member, a, b, key, firstEq, secondEq, -⟩ :=
      generated.exists_pair_of_ligature ligates
    rw [Char.toNat_inj] at firstEq secondEq
    rw [firstEq, secondEq, ← key, lookup_pair generated member]
    rfl
  · intro found
    obtain ⟨glyphs, lookup⟩ := Option.isSome_iff_exists.mp found
    obtain ⟨entry, member⟩ := generated.exists_pair (mem_of_lookup_eq_some lookup)
    obtain ⟨eq, scratch⟩ := ligature_of_key generated member rfl
    rw [eq]
    rw [mem_scratchCodepoints] at scratch
    omega

theorem unitOf_ligature {c d : Char} (first : Unrecycled tables c) (second : Unrecycled tables d)
    (found : (forms.items.lookup [c, d]).isSome = true) :
    UnitOf pairs tables [c, d] ⟨some c, d, tables.ligature (runeValue c) (runeValue d)⟩ where
  runes := rfl
  mark := by
    have ligates := (ligature_ne_zero_iff generated first second).mpr found
    exact (generated.sound.ligature_entry _ _ ligates).2.symm
  isHamza := by
    obtain ⟨glyphs, lookup⟩ := Option.isSome_iff_exists.mp found
    obtain ⟨own, member⟩ := generated.exists_pair (mem_of_lookup_eq_some lookup)
    obtain ⟨eq, scratch⟩ := ligature_of_key generated member rfl
    have other : own.trueCodept ≠ hamza.toNat := by
      intro same
      rw [same] at scratch
      exact absurd scratch (by decide +kernel)
    rw [ShaperTables.nonJoining, runeValue_of_lt first.plane, runeValue_of_lt second.plane, eq]
    simp [other]
  entry := by
    intro entry
    obtain ⟨glyphs, lookup⟩ := Option.isSome_iff_exists.mp found
    obtain ⟨own, member⟩ := generated.exists_pair (mem_of_lookup_eq_some lookup)
    rw [runeValue_of_lt first.plane, runeValue_of_lt second.plane,
      (ligature_of_key generated member rfl).1, generated.findLutEntryByCodept_pair member]
    constructor
    · intro same
      exact ⟨_, member, rfl, Option.some.inj same⟩
    · rintro ⟨other, otherMember, key, rfl⟩
      rw [generated.pair_eq otherMember member key]

/-- The units of a text are its keys. -/
theorem unitsOf {chars : List Char} (unrecycled : ∀ c ∈ chars, Unrecycled tables c) :
    List.Forall₂ (UnitOf pairs tables) (Seen.keysOf forms.items chars) (tables.units chars) := by
  induction chars using ShaperTables.units.induct tables with
  | case1 => exact .nil
  | case2 c => exact .cons (unitOf_rune generated (unrecycled c (by simp))) .nil
  | case3 c d rest ligates ih =>
      have first := unrecycled c (by simp)
      have second := unrecycled d (by simp)
      have found := (ligature_ne_zero_iff generated first second).mp ligates
      rw [ShaperTables.units_cons_ligates ligates, Seen.keysOf, if_pos found]
      exact .cons (unitOf_ligature generated first second found)
        (ih fun e member => unrecycled e (by simp [member]))
  | case4 c d rest single ih =>
      have first := unrecycled c (by simp)
      have missing : ¬ (forms.items.lookup [c, d]).isSome = true := fun found =>
        single ((ligature_ne_zero_iff generated first (unrecycled d (by simp))).mpr found)
      rw [ShaperTables.units, if_neg single, Seen.keysOf, if_neg missing]
      exact .cons (unitOf_rune generated first)
        (ih fun e member => unrecycled e (List.mem_cons_of_mem c member))

/-! ## Forms -/

theorem UnitOf.shapable {key : List Char} {unit : TextUnit}
    (reads : UnitOf pairs tables key unit) :
    (forms.items.lookup key).isSome = tables.unitShapable unit := by
  rw [ShaperTables.unitShapable, Bool.eq_iff_iff, Option.isSome_iff_exists,
    Option.isSome_iff_exists]
  constructor
  · rintro ⟨glyphs, lookup⟩
    obtain ⟨entry, member⟩ := generated.exists_pair (mem_of_lookup_eq_some lookup)
    exact ⟨entry, (reads.entry entry).mpr ⟨_, member, rfl, rfl⟩⟩
  · rintro ⟨entry, found⟩
    obtain ⟨pair, member, rfl, -⟩ := (reads.entry entry).mp found
    exact ⟨_, lookup_pair generated member⟩

/-- The distances in a record tell the glyphs apart. -/
theorem hasNoMedialForm_pair {pair : CharacterForms × ShaperLUTEntry} (member : pair ∈ pairs)
    {isolated initial medial final : Nat} (glyphs : pair.1.2 = [isolated, initial, medial, final]) :
    pair.2.hasNoMedialForm = (medial == final && final != isolated) := by
  obtain ⟨g0, g1, g2, g3, lookups, -, -, medialEq, finalEq⟩ := generated.done.forms pair member
  rw [glyphs] at lookups
  obtain ⟨first, -, third, fourth, -⟩ : packed.selectedGlyphs.lookup isolated = some g0 ∧
      packed.selectedGlyphs.lookup initial = some g1 ∧
      packed.selectedGlyphs.lookup medial = some g2 ∧
      packed.selectedGlyphs.lookup final = some g3 ∧ True := by simpa using lookups
  have medialFinal : medial = final ↔ g2 = g3 := by
    constructor
    · rintro rfl
      exact Option.some.inj (third.symm.trans fourth)
    · rintro rfl
      exact generated.glyph_eq_of_codept third fourth
  have finalIsolated : final = isolated ↔ g3 = g0 := by
    constructor
    · rintro rfl
      exact Option.some.inj (fourth.symm.trans first)
    · rintro rfl
      exact generated.glyph_eq_of_codept fourth first
  rw [ShaperLUTEntry.hasNoMedialForm, medialEq, finalEq]
  have sameDelta : ((g2 : Int) - g0 == (g3 : Int) - g0) = (medial == final) := by
    rw [Bool.eq_iff_iff, beq_iff_eq, beq_iff_eq, medialFinal]
    omega
  have noDelta : ((g3 : Int) - g0 != 0) = (final != isolated) := by
    rw [Bool.eq_iff_iff, bne_iff_ne, bne_iff_ne, ne_eq, ne_eq, finalIsolated]
    omega
  rw [sameDelta, noDelta]

variable (hamzaAlike : DrawnAlike forms.items hamza) (kashidaAlike : DrawnAlike forms.items kashida)
  (tells : FormsTell forms.items)

omit generated in
include hamzaAlike in
theorem not_joins_hamza : Seen.joinsNext forms.items [hamza] = false ∧
    Seen.joinsPrevious forms.items [hamza] = false := by
  obtain ⟨glyph, member⟩ := hamzaAlike
  have found := lookup_eq_some_of_mem forms.keys_nodup member
  have other : ([hamza] == [kashida]) = false := by decide
  constructor
  · simp [Seen.joinsNext, other, found]
  · simp [Seen.joinsPrevious, other, found]

include hamzaAlike kashidaAlike tells in
/-- The glyphs of a letter tell what the distances in its record do, but for hamza. -/
theorem joins_pair {pair : CharacterForms × ShaperLUTEntry} (member : pair ∈ pairs) :
    Seen.joinsNext forms.items pair.1.1 =
        (!pair.2.hasNoMedialForm && !decide (pair.1.1 = [hamza])) ∧
      Seen.joinsPrevious forms.items pair.1.1 = !decide (pair.1.1 = [hamza]) := by
  by_cases isHamza : pair.1.1 = [hamza]
  · obtain ⟨next, previous⟩ := not_joins_hamza hamzaAlike
    rw [isHamza, next, previous]
    simp
  · obtain ⟨previous, starts⟩ := (tells _ (generated.item_mem member)).resolve_left isHamza
    obtain ⟨g0, g1, g2, g3, glyphs⟩ :=
      List.length_eq_four.mp (forms.forms_length _ (generated.item_mem member))
    have found : forms.items.lookup pair.1.1 = some [g0, g1, g2, g3] := by
      rw [lookup_pair generated member, glyphs]
    rw [previous, hasNoMedialForm_pair generated member glyphs]
    refine ⟨?_, by simp [isHamza]⟩
    by_cases isKashida : pair.1.1 = [kashida]
    · obtain ⟨glyph, alike⟩ := kashidaAlike
      have same := lookup_eq_some_of_mem forms.keys_nodup alike
      rw [← isKashida, found] at same
      obtain ⟨rfl, rfl, rfl, rfl⟩ : g0 = glyph ∧ g1 = glyph ∧ g2 = glyph ∧ g3 = glyph := by
        simpa using same
      have other : kashida ≠ hamza := by decide
      simp [Seen.joinsNext, isKashida, other]
    · have other : (pair.1.1 == [kashida]) = false := by simpa using isKashida
      rw [Seen.joinsPrevious, other, found] at previous
      rw [glyphs] at starts
      rw [Seen.joinsNext, other, found]
      simp only [restarts] at previous starts ⊢
      grind

include hamzaAlike kashidaAlike tells in
theorem UnitOf.joins {key : List Char} {unit : TextUnit} (reads : UnitOf pairs tables key unit) :
    Seen.joinsNext forms.items key =
        (tables.unitDualJoining unit && !ShaperTables.nonJoining unit) ∧
      Seen.joinsPrevious forms.items key =
        (tables.unitShapable unit && !ShaperTables.nonJoining unit) := by
  have isHamza : ShaperTables.nonJoining unit = decide (key = [hamza]) := by
    rw [Bool.eq_iff_iff, decide_eq_true_eq, reads.isHamza]
  rw [ShaperTables.unitDualJoining, ShaperTables.unitShapable, isHamza]
  cases found : tables.findLutEntryByCodept unit.codept with
  | none =>
      have missing : forms.items.lookup key = none := by
        have shapable := UnitOf.shapable generated reads
        rw [ShaperTables.unitShapable, found] at shapable
        simpa using shapable
      obtain ⟨glyph, alike⟩ := kashidaAlike
      have other : (key == [kashida]) = false := by
        rw [beq_eq_false_iff_ne]
        rintro rfl
        rw [lookup_eq_some_of_mem forms.keys_nodup alike] at missing
        cases missing
      simp [Seen.joinsNext, Seen.joinsPrevious, missing, other]
  | some entry =>
      obtain ⟨pair, member, rfl, rfl⟩ := (reads.entry entry).mp found
      obtain ⟨next, previous⟩ := joins_pair generated hamzaAlike kashidaAlike tells member
      exact ⟨next, previous⟩

/-! ## Runes -/

/-- A rune of a shaped text by what is to be seen in its place. -/
def Stands (forms : FormsTable) (packed : PackState) (d : Char) : Seen → Prop
  | .nothing => isZeroWidth d.toNat = true
  | .form key form => ∃ glyphs glyph, (key, glyphs) ∈ forms.items ∧
      glyphs[form.index]? = some glyph ∧ packed.selectedGlyphs.lookup glyph = some d.toNat
  | .rune c => d = c

theorem stands_form {pair : CharacterForms × ShaperLUTEntry} (member : pair ∈ pairs)
    (form : LetterForm) : Stands forms packed (pair.2.formChar form) (.form pair.1.1 form) := by
  obtain ⟨glyph, codept, here, found, formEq⟩ :=
    (generated.done.forms pair member).formCodept_eq form
  refine ⟨pair.1.2, glyph, generated.item_mem member, here, ?_⟩
  have twoByte := generated.sound.form_two_byte _ _ (generated.findLutEntryByCodept_pair member)
  rw [twoByte.formChar_toNat, formEq, Int.toNat_natCast]
  exact found

omit generated in
theorem find_letter {keys : List (List Char)} {units : List TextUnit}
    (reads : List.Forall₂ (UnitOf pairs tables) keys units) :
    Option.Rel (UnitOf pairs tables) (keys.find? fun key => !markKey key)
      (ShaperTables.firstLetter units) := by
  unfold ShaperTables.firstLetter
  induction reads with
  | nil => exact .none
  | cons here _ ih =>
      rw [List.find?_cons, List.find?_cons, here.mark]
      split
      · exact .some here
      · exact ih

section Joining

variable (hamzaAlike : DrawnAlike forms.items hamza) (kashidaAlike : DrawnAlike forms.items kashida)
  (tells : FormsTell forms.items) {key : List Char} {unit : TextUnit}
  (reads : UnitOf pairs tables key unit)
  {previousKey : Option (List Char)} {previous : Option TextUnit}
  (before : Option.Rel (UnitOf pairs tables) previousKey previous)

include hamzaAlike kashidaAlike tells reads before

/-- The form of a key is the form that the kinds of the letters ask for. -/
theorem formOf_eq {nextKey : Option (List Char)} {next : Option TextUnit}
    (behind : Option.Rel (UnitOf pairs tables) nextKey next) :
    Seen.formOf forms.items previousKey key nextKey = tables.formByKind previous unit next := by
  have joinsEq {first second : List Char} {unit unit' : TextUnit}
      (reads : UnitOf pairs tables first unit) (reads' : UnitOf pairs tables second unit') :
      Seen.joins forms.items first second = tables.joins unit unit' := by
    rw [Seen.joins, (UnitOf.joins generated hamzaAlike kashidaAlike tells reads).1,
      (UnitOf.joins generated hamzaAlike kashidaAlike tells reads').2, ShaperTables.joins]
    cases ShaperTables.nonJoining unit <;> cases ShaperTables.nonJoining unit' <;> simp
  have inFront : (previousKey.any fun first => Seen.joins forms.items first key) =
      previous.any fun first => tables.joins first unit := by
    cases before with
    | none => rfl
    | some other => exact joinsEq other reads
  have after : nextKey.any (Seen.joins forms.items key) = next.any (tables.joins unit) := by
    cases behind with
    | none => rfl
    | some other => exact joinsEq reads other
  rw [Seen.formOf, inFront, after]
  rfl

/-- Where no unit is stranded and hamza does no harm, the pass writes what is to be seen. -/
theorem stands_writtenUnit {keys : List (List Char)} {units : List TextUnit}
    (later : List.Forall₂ (UnitOf pairs tables) keys units) (tablesAlike : tables.HamzaAlike)
    (unstranded : tables.strandedUnit previous unit units = false)
    (harmless : tables.harmlessUnit previous unit (ShaperTables.firstLetter units) = true) :
    List.Forall₂ (Stands forms packed) (tables.writtenUnit previous unit units)
      (Seen.ofKey forms.items previousKey key keys) := by
  have front : key.dropLast = unit.first.toList := by rw [reads.runes, List.dropLast_concat]
  have last : key.getLast? = some unit.last := by rw [reads.runes, List.getLast?_concat]
  have form := formOf_eq generated hamzaAlike kashidaAlike tells reads before (find_letter later)
  rw [ShaperTables.writtenUnit, Seen.ofKey, front, last, UnitOf.shapable generated reads,
    ShaperTables.unitShapable, form]
  apply List.rel_append
  · -- The first rune of a ligature has become a placeholder.
    cases unit.first with
    | none => exact .nil
    | some c => exact .cons (show isZeroWidth placeholder.toNat = true by decide) .nil
  · cases found : tables.findLutEntryByCodept unit.codept with
    | none => exact .cons rfl .nil
    | some entry =>
        have written := (tablesAlike.formChar_formByKind_iff generated.sound found unstranded).mpr
          harmless
        obtain ⟨pair, member, rfl, rfl⟩ := (reads.entry entry).mp found
        rw [Option.isSome_some, if_pos rfl]
        simp only [written]
        exact .cons (stands_form generated member _) .nil

end Joining

theorem stands_writtenUnits (hamzaAlike : DrawnAlike forms.items hamza)
    (kashidaAlike : DrawnAlike forms.items kashida) (tells : FormsTell forms.items)
    (tablesAlike : tables.HamzaAlike) {keys : List (List Char)} {units : List TextUnit}
    (reads : List.Forall₂ (UnitOf pairs tables) keys units) {previousKey : Option (List Char)}
    {previous : Option TextUnit}
    (before : Option.Rel (UnitOf pairs tables) previousKey previous)
    (unstranded : tables.noStrandedUnit previous units = true)
    (harmless : tables.harmlessUnits previous units = true) :
    List.Forall₂ (Stands forms packed) (tables.writtenUnits previous units)
      (Seen.ofKeys forms.items previousKey keys) := by
  induction reads generalizing previous previousKey with
  | nil => exact .nil
  | @cons key unit keys units here later ih =>
      rw [ShaperTables.noStrandedUnit] at unstranded
      rw [ShaperTables.harmlessUnits] at harmless
      rw [ShaperTables.writtenUnits, Seen.ofKeys, here.mark]
      cases mark : ShaperTables.markUnit unit with
      | true =>
          rw [mark, if_pos rfl] at unstranded harmless
          rw [if_pos rfl, if_pos rfl]
          exact .cons (here.last_zeroWidth mark) (ih before unstranded harmless)
      | false =>
          rw [mark, if_neg Bool.false_ne_true, Bool.and_eq_true] at unstranded harmless
          rw [if_neg Bool.false_ne_true, if_neg Bool.false_ne_true]
          have firstUnstranded : tables.strandedUnit previous unit units = false := by
            simpa using unstranded.1
          apply List.rel_append (stands_writtenUnit generated hamzaAlike kashidaAlike tells here
            before later tablesAlike firstUnstranded harmless.1)
          exact ih (.some here) unstranded.2 harmless.2

end RuntimeTables

/-! ## What a composed font shows -/

/-- What the font has for a rune of the shaped text: nothing to draw, what was emitted for the
glyph that `hb-shape` gives for a key in the context of a form, or the rune itself. -/
def Shows (hbShape : List Char → Except PyError (List Nat)) (kashidaGlyph : Nat)
    (pfo : List UInt8) (font : FontGen.Font) (d : Char) : Seen → Prop
  | .nothing => Renders pfo d.toNat (some [0, 0, 0, 0, 0])
  | .form key form => ∃ chComp glyph, (formContexts key)[form.index]? = some chComp ∧
      targetGlyph hbShape kashidaGlyph key chComp = .ok glyph ∧
      DrawsGlyph pfo font d.toNat (.face glyph)
  | .rune c => d = c

/-- A glyph of the forms table comes from the context of its form. -/
theorem exists_context {hbShape : List Char → Except PyError (List Nat)} {kashidaGlyph : Nat}
    {key : List Char} {glyphs : List Nat} {form : LetterForm} {glyph : Nat}
    (each : List.Forall₂ (fun chComp glyph => targetGlyph hbShape kashidaGlyph key chComp = .ok glyph)
      (formContexts key) glyphs) (here : glyphs[form.index]? = some glyph) :
    ∃ chComp, (formContexts key)[form.index]? = some chComp ∧
      targetGlyph hbShape kashidaGlyph key chComp = .ok glyph := by
  obtain ⟨bound, rfl⟩ := List.getElem?_eq_some_iff.mp here
  have inContexts : form.index < (formContexts key).length := by
    rw [each.length_eq]
    exact bound
  exact ⟨_, List.getElem?_eq_getElem inContexts, each.get inContexts bound⟩

theorem shows_of_stands {hbShape : List Char → Except PyError (List Nat)} {kashidaGlyph : Nat}
    {forms : FormsTable} {packed : PackState} {pairs : List (CharacterForms × ShaperLUTEntry)}
    (table : PackedTable forms packed pairs)
    (each : ∀ item ∈ forms.items, List.Forall₂
      (fun chComp glyph => targetGlyph hbShape kashidaGlyph item.1 chComp = .ok glyph)
      (formContexts item.1) item.2)
    {shapeAlone : Char → Nat}
    (fresh : ∀ ch ∈ supplementalAlphabet, ∀ item ∈ forms.items, shapeAlone ch ∉ item.2)
    {faces : Faces} {compressed : Bool} {size : Nat} {shaper hebrew : MergeMember}
    {input pfo : List UInt8}
    (composed : Composed faces (shaperMap shapeAlone packed) compressed size shaper hebrew input
      pfo) {d : Char} {seen : Seen} (stands : RuntimeTables.Stands forms packed d seen) :
    Shows hbShape kashidaGlyph pfo (memberFont faces compressed size shaper) d seen := by
  cases seen with
  | nothing => exact composed.zeroWidth _ (mem_zeroWidthCodepoints.mpr stands)
  | rune c => exact stands
  | form key form =>
      obtain ⟨glyphs, glyph, member, here, found⟩ := stands
      obtain ⟨chComp, context, target⟩ := exists_context (each _ member) here
      have unselected : ∀ ch ∈ supplementalAlphabet,
          packed.selectedGlyphs.lookup (shapeAlone ch) = none := by
        intro ch inAlphabet
        rw [← Option.not_isSome_iff_eq_none, Option.isSome_iff_exists, table.selected_iff]
        rintro ⟨item, inItems, inForms⟩
        exact fresh ch inAlphabet item inItems inForms
      have inMap : (d.toNat, glyph) ∈ shaperMap shapeAlone packed :=
        mem_selectedCodeptItems.mpr (table.selectedCodepts_supplement unselected found)
      exact ⟨chComp, glyph, context, target, composed.shaperGlyph _ inMap⟩

/-- What is seen of a text in which no unit is stranded and hamza does no harm. -/
theorem shapeText_seen {subset : Subset} {hbShape : List Char → Except PyError (List Nat)}
    {kashidaGlyph : Nat} {items : List CharacterForms}
    (formsRun : generateForms hbShape kashidaGlyph (shapedAlphabet subset) ligatures = .ok items)
    {unicodedataName : Char → Option String} {packed : PackState}
    (packRun : packLut unicodedataName items = .ok packed) {tables : ShaperTables}
    (tablesRun : generateTables unicodedataName items = .ok tables)
    (draws : DrawsHamza hbShape kashidaGlyph) (tells : FormsTell items) {m : Memory} {text : Int}
    {chars : List Char} (stands : TextAt m text chars)
    (unrecycled : ∀ c ∈ chars, Unrecycled tables c)
    (unstranded : tables.noStrandedUnit none (tables.units chars) = true)
    (harmless : HarmlessHamza tables chars) :
    ∃ forms pairs after shaped, forms.items = items ∧ PackedTable forms packed pairs ∧
      shapeText tables m text = .ok after ∧ TextAt after text shaped ∧
      List.Forall₂ (RuntimeTables.Stands forms packed) shaped (Seen.ofText items chars) := by
  have tablesAlike : tables.HamzaAlike := by
    obtain ⟨_, _, _, hamzaTables⟩ := exists_hamzaTables formsRun draws tablesRun
    exact hamzaTables.alikeHamza
  have hamzaAlike := drawnAlike_hamza formsRun draws
  have kashidaAlike := drawnAlike_kashida formsRun
  obtain ⟨forms, rfl, ligaturesOfLetters, noZeroWidth⟩ := exists_formsTable formsRun
  obtain ⟨otherPacked, pairs, otherRun, runtime, range⟩ := generateTables_ok tablesRun
  obtain rfl := Except.ok.inj (otherRun.symm.trans packRun)
  have generated : GeneratedTables forms otherPacked pairs tables := ⟨runtime, range⟩
  have plane : ∀ c ∈ chars, c ≠ '\x00' ∧ c.toNat < 0x10000 :=
    fun c member => ⟨(unrecycled c member).nonzero, (unrecycled c member).plane⟩
  obtain ⟨after, shapeRun, shaped, -⟩ :=
    shapeText_spec runtime.sound (runtime.shapable plane) stands
  refine ⟨forms, pairs, after, tables.shapeChars chars, rfl, runtime.toPackedTable, shapeRun,
    shaped, ?_⟩
  rw [ShaperTables.shapeChars_eq_writtenUnits (runtime.ligaturesLead ligaturesOfLetters)
    ((runtime.wideLigatures noZeroWidth).marksAlone chars)]
  exact RuntimeTables.stands_writtenUnits generated hamzaAlike kashidaAlike tells tablesAlike
    (RuntimeTables.unitsOf generated unrecycled) .none unstranded harmless

def salam : List Char :=
  ['س', 'ل', 'ا', 'م', ' ', 'ب']

theorem salam_ok : (∀ c ∈ salam, Unrecycled sampleTables c) ∧
    sampleTables.noStrandedUnit none (sampleTables.units salam) = true ∧
    HarmlessHamza sampleTables salam ∧ FormsTell sampleItems ∧
    Seen.ofText sampleItems salam = [.form ['س'] .initial, .nothing, .form ['ل', 'ا'] .final,
      .form ['م'] .isolated, .rune ' ', .form ['ب'] .isolated] := by
  decide +kernel

end Elbbep
