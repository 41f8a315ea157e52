import Elbbep.MarkTransparency

/-!
# Letters that join nothing

Hamza joins neither the letter before it nor the letter behind it, and looks the
same everywhere; kashida joins both, and looks the same everywhere too.  The runtime
tells joining behaviour from the forms alone, so it takes hamza for kashida.  This file
describes the forms that letters have when hamza joins nothing, and states for which
texts `shape_text` writes them.
-/

namespace Elbbep

open ByteMemory Utf8Encoding PythonStruct

def hamza : Char := 'ء'

/-- The runes that a unit is made of. -/
def TextUnit.runes (unit : TextUnit) : List Char :=
  unit.first.toList ++ [unit.last]

namespace ShaperTables

variable (tables : ShaperTables)

/-! ## Forms by the kinds of letters -/

def nonJoining (unit : TextUnit) : Bool :=
  unit.codept == hamza.toNat

/-- Two letters that stand together are joined, unless one of them is hamza. -/
def joins (first second : TextUnit) : Bool :=
  !nonJoining first && !nonJoining second && tables.unitDualJoining first &&
    tables.unitShapable second

/-- The form of a unit between the units around it. -/
def formByKind (previous : Option TextUnit) (unit : TextUnit) (next : Option TextUnit) :
    LetterForm :=
  match previous.any fun before => tables.joins before unit, next.any (tables.joins unit) with
  | false, false => .isolated
  | false, true => .initial
  | true, true => .medial
  | true, false => .final

/-- The nearest unit before a place that is no mark. -/
def lastLetter (before : List TextUnit) : Option TextUnit :=
  (before.filter fun unit => !markUnit unit).getLast?

/-- The nearest unit behind a place that is no mark. -/
def firstLetter (behind : List TextUnit) : Option TextUnit :=
  behind.find? fun unit => !markUnit unit

/-! ## Where hamza does no harm -/

/-- A letter before hamza looks the same joined to it and not. -/
def endsAlike (previous : Option TextUnit) (entry : ShaperLUTEntry) : Bool :=
  if previous.any nonJoining then !entry.hasNoMedialForm && entry.medialCodeptDelta == 0
  else
    entry.hasNoMedialForm ||
      if previous.any tables.unitDualJoining then
        entry.medialCodeptDelta == entry.finalCodeptDelta
      else entry.initialCodeptDelta == 0

/-- A letter behind hamza looks the same joined to it and not. -/
def startsAlike (entry : ShaperLUTEntry) (next : Option TextUnit) : Bool :=
  !entry.hasNoMedialForm &&
    if next.any nonJoining then entry.medialCodeptDelta == 0
    else if next.any tables.unitShapable then
      entry.medialCodeptDelta == entry.initialCodeptDelta
    else entry.finalCodeptDelta == 0

def harmlessUnit (previous : Option TextUnit) (unit : TextUnit) (next : Option TextUnit) : Bool :=
  match tables.findLutEntryByCodept unit.codept with
  | some entry =>
      (!next.any nonJoining || tables.endsAlike previous entry) &&
        (!previous.any nonJoining || tables.startsAlike entry next)
  | none => true

/-- All letters next to hamza look the same joined to it and not; `previous` is the last unit
that is no mark. -/
def harmlessUnits : (previous : Option TextUnit) → List TextUnit → Bool
  | _, [] => true
  | previous, unit :: rest =>
      if markUnit unit then harmlessUnits previous rest
      else tables.harmlessUnit previous unit (firstLetter rest) && harmlessUnits (some unit) rest

variable {tables : ShaperTables}

theorem lastLetter_cons_or (unit : TextUnit) (rest : List TextUnit) (previous : Option TextUnit) :
    (lastLetter (unit :: rest)).or previous =
      (lastLetter rest).or (if markUnit unit then previous else some unit) := by
  unfold lastLetter
  cases mark : markUnit unit with
  | true => rw [List.filter_cons_of_neg (by simp [mark])]; rfl
  | false =>
      rw [List.filter_cons_of_pos (by simp [mark]), List.getLast?_cons]
      cases (rest.filter fun unit => !markUnit unit).getLast? <;> rfl

theorem harmlessUnits_iff (units : List TextUnit) (previous : Option TextUnit) :
    tables.harmlessUnits previous units = true ↔
      ∀ before unit behind, units = before ++ unit :: behind → markUnit unit = false →
        tables.harmlessUnit ((lastLetter before).or previous) unit (firstLetter behind) = true := by
  induction units generalizing previous with
  | nil => simp [harmlessUnits]
  | cons first rest ih =>
      have split : tables.harmlessUnits previous (first :: rest) = true ↔
          (markUnit first = false →
            tables.harmlessUnit previous first (firstLetter rest) = true) ∧
          tables.harmlessUnits (if markUnit first then previous else some first) rest = true := by
        rw [harmlessUnits]
        cases markUnit first <;> simp
      rw [split, ih]
      constructor
      · rintro ⟨here, later⟩ before unit behind eq letter
        cases before with
        | nil =>
            obtain ⟨rfl, rfl⟩ := List.cons.inj eq
            exact here letter
        | cons other before =>
            obtain ⟨rfl, rfl⟩ := List.cons.inj eq
            rw [lastLetter_cons_or]
            exact later before unit behind rfl letter
      · intro all
        refine ⟨fun letter => all [] first rest rfl letter, fun before unit behind eq letter => ?_⟩
        rw [← lastLetter_cons_or]
        exact all (first :: before) unit behind (by rw [eq, List.cons_append]) letter

/-- In a text as the pass writes it, the form of a unit stands in the place of its last rune. -/
theorem writtenUnits_getElem? (before : List TextUnit) {unit : TextUnit} (behind : List TextUnit)
    (letter : markUnit unit = false) {entry : ShaperLUTEntry}
    (found : tables.findLutEntryByCodept unit.codept = some entry)
    (alone : ∀ other ∈ before, markUnit other = true → other.first = none)
    (previous : Option TextUnit) :
    (tables.writtenUnits previous (before ++ unit :: behind))[
        (before.flatMap TextUnit.runes).length + unit.first.toList.length]? =
      some (entry.formChar (entry.formIn
        (((lastLetter before).or previous).any tables.unitDualJoining)
        (tables.unitsFollowing behind))) := by
  induction before generalizing previous with
  | nil =>
      rw [List.nil_append, writtenUnits, if_neg (by simp [letter]), writtenUnit, found]
      cases unit.first <;> rfl
  | cons first rest ih =>
      have later := ih (fun other member => alone other (List.mem_cons_of_mem first member))
      rw [List.cons_append, writtenUnits, List.flatMap_cons, List.length_append,
        lastLetter_cons_or]
      cases mark : markUnit first with
      | true =>
          have size : first.runes.length = 1 := by
            rw [TextUnit.runes, alone first List.mem_cons_self mark]
            rfl
          rw [if_pos rfl, if_pos rfl, ← later, size, Nat.add_assoc, Nat.add_comm 1,
            List.getElem?_cons_succ]
      | false =>
          have size : (tables.writtenUnit previous first (rest ++ unit :: behind)).length =
              first.runes.length := by
            unfold writtenUnit TextUnit.runes
            cases tables.findLutEntryByCodept first.codept <;> simp
          rw [if_neg (by simp), if_neg (by simp), ← later, ← size, Nat.add_assoc,
            List.getElem?_append_right (Nat.le_add_right _ _), Nat.add_sub_cancel_left]

/-- Marks are units of one rune. -/
theorem first_of_markUnit (lead : tables.LigaturesLead) (chars : List Char) :
    ∀ unit ∈ tables.units chars, markUnit unit = true → unit.first = none := by
  induction chars using units.induct tables with
  | case1 => simp [units]
  | case2 c => simp [units]
  | case3 c d rest ligates ih =>
      rw [units_cons_ligates ligates, List.forall_mem_cons]
      refine ⟨fun mark => ?_, ih⟩
      rw [markUnit, (lead.entry _ _ ligates).2] at mark
      cases mark
  | case4 c d rest single ih =>
      rw [units, if_neg single, List.forall_mem_cons]
      exact ⟨fun _ => rfl, ih⟩

end ShaperTables

theorem formChar_eq_iff {entry : ShaperLUTEntry} (twoByte : entry.TwoByteForms)
    (form other : LetterForm) :
    entry.formChar form = entry.formChar other ↔ entry.delta form = entry.delta other := by
  have bounds := twoByte form
  have otherBounds := twoByte other
  rw [← Char.toNat_inj, twoByte.formChar_toNat, twoByte.formChar_toNat]
  simp only [ShaperLUTEntry.formCodept] at bounds otherBounds ⊢
  omega

namespace ShaperTables

variable {tables : ShaperTables}

/-- Kinds of letters in which the records agree: hamza looks the same everywhere, so that it is
taken for a letter that joins. -/
structure HamzaAlike (tables : ShaperTables) : Prop where
  found : ∃ entry, tables.findLutEntryByCodept hamza.toNat = some entry
  alike : ∀ entry, tables.findLutEntryByCodept hamza.toNat = some entry →
    ∀ form, entry.delta form = 0

namespace HamzaAlike

variable (hamzaAlike : tables.HamzaAlike)

include hamzaAlike

theorem dualJoining {unit : TextUnit} (isHamza : nonJoining unit = true) :
    tables.unitDualJoining unit = true := by
  obtain ⟨entry, found⟩ := hamzaAlike.found
  have final : entry.finalCodeptDelta = 0 := hamzaAlike.alike entry found .final
  rw [nonJoining, beq_iff_eq] at isHamza
  simp [unitDualJoining, isHamza, found, final]

theorem shapable {unit : TextUnit} (isHamza : nonJoining unit = true) :
    tables.unitShapable unit = true := by
  obtain ⟨entry, found⟩ := hamzaAlike.found
  rw [nonJoining, beq_iff_eq] at isHamza
  simp [unitShapable, isHamza, found]

/-- Where no unit is stranded, the pass writes the form that the kinds of the letters ask for if
and only if hamza does no harm. -/
theorem formChar_formByKind_iff (sound : tables.Sound) {previous : Option TextUnit}
    {unit : TextUnit} {entry : ShaperLUTEntry}
    (found : tables.findLutEntryByCodept unit.codept = some entry) {behind : List TextUnit}
    (unstranded : tables.strandedUnit previous unit behind = false) :
    entry.formChar (entry.formIn (previous.any tables.unitDualJoining)
        (tables.unitsFollowing behind)) =
      entry.formChar (tables.formByKind previous unit (firstLetter behind)) ↔
      tables.harmlessUnit previous unit (firstLetter behind) = true := by
  have twoByte := sound.form_two_byte _ _ found
  by_cases isHamza : nonJoining unit = true
  · -- All forms of hamza are the same.
    rw [nonJoining, beq_iff_eq] at isHamza
    have same := hamzaAlike.alike entry (isHamza ▸ found)
    have initial : entry.initialCodeptDelta = 0 := same .initial
    have medial : entry.medialCodeptDelta = 0 := same .medial
    have final : entry.finalCodeptDelta = 0 := same .final
    rw [formChar_eq_iff twoByte, same, same, harmlessUnit, found]
    simp [endsAlike, startsAlike, ShaperLUTEntry.hasNoMedialForm, initial, medial, final]
  · rw [formChar_eq_iff twoByte]
    have other : nonJoining unit = false := by simpa using isHamza
    have shapable : tables.unitShapable unit = true := by simp [unitShapable, found]
    have dual : tables.unitDualJoining unit = !entry.hasNoMedialForm := by
      simp [unitDualJoining, found, ShaperLUTEntry.hasNoMedialForm]
    have before : (previous.any fun before => tables.joins before unit) =
        (previous.any tables.unitDualJoining && !previous.any nonJoining) := by
      cases previous <;> simp [joins, other, shapable, Bool.and_comm]
    have next : (firstLetter behind).any (tables.joins unit) =
        (!entry.hasNoMedialForm && (firstLetter behind).any tables.unitShapable &&
          !(firstLetter behind).any nonJoining) := by
      cases firstLetter behind with
      | none => simp
      | some next =>
          simp only [Option.any_some, joins, other, dual]
          cases nonJoining next <;> simp
    have previousDual : previous.any nonJoining = true →
        previous.any tables.unitDualJoining = true := by
      cases previous with
      | none => exact id
      | some before => exact hamzaAlike.dualJoining
    have nextShapable : (firstLetter behind).any nonJoining = true →
        (firstLetter behind).any tables.unitShapable = true := by
      cases firstLetter behind with
      | none => exact id
      | some next => exact hamzaAlike.shapable
    have follows : tables.unitsFollowing behind =
        if (firstLetter behind).any tables.unitShapable then .letter
        else if behind.head?.any markUnit then .breakAfterMarks
        else .breakNow := rfl
    have stranded : ((entry.finalCodeptDelta != 0 &&
        entry.medialCodeptDelta != entry.finalCodeptDelta) &&
        !previous.any tables.unitDualJoining && behind.head?.any markUnit &&
        !(firstLetter behind).any tables.unitShapable) = false := by
      rw [strandedUnit, found] at unstranded
      exact unstranded
    rw [formByKind, before, next, follows, harmlessUnit, found]
    simp only [endsAlike, startsAlike, ShaperLUTEntry.formIn]
    generalize previous.any nonJoining = behindHamza at *
    generalize previous.any tables.unitDualJoining = joined at *
    generalize (firstLetter behind).any nonJoining = beforeHamza at *
    generalize (firstLetter behind).any tables.unitShapable = goesOn at *
    cases noMedial : entry.hasNoMedialForm with
    | true =>
        -- The pass gives such a letter the form for the end of a word, and hamza joins it in front.
        have final : entry.finalCodeptDelta ≠ 0 := by
          simp_all [ShaperLUTEntry.hasNoMedialForm]
        cases behindHamza with
        | true =>
            obtain rfl := previousDual rfl
            simpa [ShaperLUTEntry.delta] using final
        | false => cases joined <;> simp
    | false =>
        cases goesOn with
        | true =>
            cases behindHamza with
            | true =>
                obtain rfl := previousDual rfl
                cases beforeHamza <;> simp [ShaperLUTEntry.delta]
            | false => cases joined <;> cases beforeHamza <;> simp [ShaperLUTEntry.delta]
        | false =>
            obtain rfl : beforeHamza = false := by
              by_contra next
              exact Bool.false_ne_true (nextShapable (by simpa using next))
            cases behindHamza with
            | true =>
                obtain rfl := previousDual rfl
                cases behind.head?.any markUnit <;> simp [ShaperLUTEntry.delta]
            | false =>
                cases joined with
                | true => cases behind.head?.any markUnit <;> simp
                | false =>
                    cases marked : behind.head?.any markUnit with
                    | false => simp
                    | true =>
                        -- Marks end the word behind a letter that nothing joins.
                        rw [ShaperLUTEntry.hasNoMedialForm, Bool.and_eq_false_iff] at noMedial
                        simp only [beq_eq_false_iff_ne, bne_eq_false_iff_eq] at noMedial
                        simp only [marked, Bool.not_false, Bool.and_true, Bool.and_eq_false_iff,
                          bne_eq_false_iff_eq] at stranded
                        have final : entry.finalCodeptDelta = 0 := by tauto
                        simp [ShaperLUTEntry.delta, final]

end HamzaAlike

/-- A letter that is part of no ligature is a unit of its own. -/
theorem units_append_letter {letter : Char}
    (first : ∀ second, tables.ligature (runeValue letter) second = 0)
    (second : ∀ first, tables.ligature first (runeValue letter) = 0) (before behind : List Char) :
    tables.units (before ++ letter :: behind) =
      tables.units before ++ ⟨none, letter, runeValue letter⟩ :: tables.units behind := by
  induction before using units.induct tables with
  | case1 =>
      apply units_cons_alone
      cases behind <;> simp [ligates, first]
  | case2 c =>
      have alone : tables.units (letter :: behind) =
          ⟨none, letter, runeValue letter⟩ :: tables.units behind := by
        apply units_cons_alone
        cases behind <;> simp [ligates, first]
      rw [List.singleton_append, units_cons_alone (by simp [ligates, second]), alone]
      rfl
  | case3 c d rest ligates ih =>
      rw [List.cons_append, List.cons_append, units_cons_ligates ligates,
        units_cons_ligates ligates, ih, List.cons_append]
  | case4 c d rest single ih =>
      have complete (more : List Char) : tables.ligates (runeValue c) (d :: more) = false := by
        simpa [ligates] using single
      rw [List.cons_append, List.cons_append, units_cons_alone (complete _),
        units_cons_alone (complete _), ← List.cons_append, ih, List.cons_append]

end ShaperTables

/-! ## The forms of hamza and kashida -/

/-- The contexts in which `generate_forms` tries a key. -/
def formContexts (ch : List Char) : List (List Char) :=
  [ch, ch ++ [kashida], kashida :: ch ++ [kashida], kashida :: ch]

/-- The glyph of a key in one of its contexts: the only one besides kashida. -/
def targetGlyph (hbShape : List Char → Except PyError (List Nat)) (kashidaGlyph : Nat)
    (ch chComp : List Char) : Except PyError Nat :=
  if ch = [kashida] then .ok kashidaGlyph
  else do
    let shaped ← hbShape chComp
    match shaped.filter (· != kashidaGlyph) with
    | [glyph] => .ok glyph
    | _ => .error .assertionError

/-- `generate_forms`, over the glyphs that `hb-shape` reports for a text.  The keys are
distinct, so the dictionary is the list of its items. -/
def generateForms (hbShape : List Char → Except PyError (List Nat)) (kashidaGlyph : Nat)
    (alphabet : List Char) (ligatures : List (List Char)) :
    Except PyError (List CharacterForms) :=
  (alphabet.map (fun ch => [ch]) ++ ligatures).mapM fun ch => do
    let chForms ← (formContexts ch).mapM (targetGlyph hbShape kashidaGlyph ch)
    .ok (ch, chForms)

section Generated

variable {hbShape : List Char → Except PyError (List Nat)} {kashidaGlyph : Nat}
  {items : List CharacterForms}

theorem generateForms_ok {alphabet : List Char} {ligatures : List (List Char)}
    (run : generateForms hbShape kashidaGlyph alphabet ligatures = .ok items) :
    items.map Prod.fst = alphabet.map (fun ch => [ch]) ++ ligatures ∧
      ∀ item ∈ items, List.Forall₂
        (fun chComp glyph => targetGlyph hbShape kashidaGlyph item.1 chComp = .ok glyph)
        (formContexts item.1) item.2 := by
  have each := mapM_ok run
  have made {ch : List Char} {item : CharacterForms}
      (itemRun : ((formContexts ch).mapM (targetGlyph hbShape kashidaGlyph ch)).bind
        (fun chForms => .ok (ch, chForms)) = .ok item) :
      item.1 = ch ∧ List.Forall₂
        (fun chComp glyph => targetGlyph hbShape kashidaGlyph item.1 chComp = .ok glyph)
        (formContexts item.1) item.2 := by
    obtain ⟨chForms, formsRun, itemRun⟩ := bind_ok itemRun
    cases itemRun
    exact ⟨rfl, mapM_ok formsRun⟩
  obtain ⟨forms, keys⟩ := (List.forall₂_and_left _ _).mp
    (each.flip.imp fun item ch itemRun => ⟨(made itemRun).2, (made itemRun).1⟩)
  refine ⟨?_, forms⟩
  rwa [← List.forall₂_map_left_iff, List.forall₂_eq_eq_eq] at keys

/-- The keys of a generated forms table. -/
def formKeys (subset : Subset) : List (List Char) :=
  (shapedAlphabet subset).map (fun ch => [ch]) ++ ligatures

theorem formKeys_nodup (subset : Subset) : (formKeys subset).Nodup := by
  cases subset <;> decide +kernel

theorem mem_formKeys {subset : Subset} {key : List Char} (member : key ∈ formKeys subset) :
    (key.length = 1 ∨ key.length = 2) ∧ (∀ c ∈ key, c ∈ shapedAlphabet subset) ∧
      (hamza ∈ key → key = [hamza]) ∧ (kashida ∈ key → key = [kashida]) := by
  rw [formKeys, List.mem_append] at member
  rcases member with letter | ligature
  · obtain ⟨ch, inAlphabet, rfl⟩ := List.mem_map.mp letter
    simp [inAlphabet, eq_comm]
  · have second := (shapedAlphabet_letters subset).2 key ligature
    obtain rfl : key = "لا".toList := by simpa [ligatures] using ligature
    exact ⟨Or.inr second.1, second.2, by decide, by decide⟩

/-- What `generate_forms` makes of one of the alphabets is a forms table. -/
theorem exists_formsTable {subset : Subset}
    (run : generateForms hbShape kashidaGlyph (shapedAlphabet subset) ligatures = .ok items) :
    ∃ forms : FormsTable, forms.items = items ∧ forms.LigaturesOfLetters ∧ forms.NoZeroWidth := by
  obtain ⟨keys, itemForms⟩ := generateForms_ok run
  change items.map Prod.fst = formKeys subset at keys
  have inKeys : ∀ item ∈ items, item.1 ∈ formKeys subset := by
    intro item member
    rw [← keys]
    exact List.mem_map_of_mem member
  have letters := (shapedAlphabet_letters subset).1
  refine ⟨⟨items, ?_, ?_, ?_, ?_⟩, rfl, ?_, ?_⟩
  · rw [keys]
    exact formKeys_nodup subset
  · exact fun item member => (mem_formKeys (inKeys item member)).1
  · exact fun item member => (itemForms item member).length_eq.symm
  · intro item member c inKey
    exact (letters c ((mem_formKeys (inKeys item member)).2.1 c inKey)).1
  · intro item member c inKey
    change [c] ∈ items.map Prod.fst
    rw [keys]
    apply List.mem_append_left
    exact List.mem_map_of_mem ((mem_formKeys (inKeys item member)).2.1 c inKey)
  · intro item member c inKey
    exact (letters c ((mem_formKeys (inKeys item member)).2.1 c inKey)).2

/-- In all four contexts `hb-shape` draws hamza with one glyph. -/
def DrawsHamza (hbShape : List Char → Except PyError (List Nat)) (kashidaGlyph : Nat) : Prop :=
  ∃ glyph, ∀ chComp ∈ formContexts [hamza], ∃ shaped,
    hbShape chComp = .ok shaped ∧ shaped.filter (· != kashidaGlyph) = [glyph]

/-- A letter that is drawn with one glyph everywhere. -/
def DrawnAlike (items : List CharacterForms) (letter : Char) : Prop :=
  ∃ glyph, ([letter], [glyph, glyph, glyph, glyph]) ∈ items

theorem drawnAlike_of_targetGlyph {subset : Subset} {letter : Char}
    (run : generateForms hbShape kashidaGlyph (shapedAlphabet subset) ligatures = .ok items)
    (inAlphabet : letter ∈ shapedAlphabet subset) (glyph : Nat)
    (same : ∀ chComp ∈ formContexts [letter],
      targetGlyph hbShape kashidaGlyph [letter] chComp = .ok glyph) :
    DrawnAlike items letter := by
  obtain ⟨keys, itemForms⟩ := generateForms_ok run
  have inKeys : [letter] ∈ items.map Prod.fst := by
    rw [keys]
    exact List.mem_append_left _ (List.mem_map_of_mem inAlphabet)
  obtain ⟨⟨key, chForms⟩, member, rfl⟩ := List.mem_map.mp inKeys
  have glyphs := itemForms _ member
  have each : ∀ other ∈ chForms, other = glyph := by
    intro other inForms
    obtain ⟨index, bound, rfl⟩ := List.getElem_of_mem inForms
    have here := (List.forall₂_iff_get.mp glyphs).2 index
      (by rw [glyphs.length_eq]; exact bound) bound
    exact Except.ok.inj (here.symm.trans (same _ (List.getElem_mem _)))
  have four : chForms = List.replicate 4 glyph :=
    List.eq_replicate_iff.mpr ⟨glyphs.length_eq.symm, each⟩
  rw [four] at member
  exact ⟨glyph, member⟩

theorem drawnAlike_kashida {subset : Subset}
    (run : generateForms hbShape kashidaGlyph (shapedAlphabet subset) ligatures = .ok items) :
    DrawnAlike items kashida := by
  have inAlphabet : kashida ∈ shapedAlphabet subset := by cases subset <;> decide +kernel
  exact drawnAlike_of_targetGlyph run inAlphabet kashidaGlyph fun _ _ => rfl

theorem drawnAlike_hamza {subset : Subset}
    (run : generateForms hbShape kashidaGlyph (shapedAlphabet subset) ligatures = .ok items)
    (draws : DrawsHamza hbShape kashidaGlyph) : DrawnAlike items hamza := by
  obtain ⟨glyph, same⟩ := draws
  have inAlphabet : hamza ∈ shapedAlphabet subset := by cases subset <;> decide +kernel
  apply drawnAlike_of_targetGlyph run inAlphabet glyph
  intro chComp member
  obtain ⟨shaped, shapeRun, only⟩ := same chComp member
  rw [targetGlyph, if_neg (by decide), shapeRun]
  simp [bind, Except.bind, only]

end Generated

/-! ## The letters around hamza and kashida -/

namespace ShaperTables

variable {tables : ShaperTables}

/-- A unit with hamza or kashida. -/
def drawnAlike (unit : TextUnit) : Bool :=
  unit.codept == hamza.toNat || unit.codept == kashida.toNat

/-- Away from hamza nothing is asked of a unit. -/
theorem harmlessUnit_of_not_drawnAlike {previous next : Option TextUnit} (unit : TextUnit)
    (far : ¬ (previous.any drawnAlike = true ∨
      next.any drawnAlike = true)) :
    tables.harmlessUnit previous unit next = true := by
  have none {letter : Option TextUnit} (away : ¬ letter.any drawnAlike = true) :
      letter.any nonJoining = false := by
    cases letter with
    | none => rfl
    | some letter => simp_all [drawnAlike, nonJoining]
  rw [not_or] at far
  rw [harmlessUnit, none far.1, none far.2]
  cases tables.findLutEntryByCodept unit.codept <;> rfl

end ShaperTables

/-- The letters next to hamza and kashida have the forms that their neighbours ask for, where
hamza joins neither side and kashida joins both: before hamza a letter is final or isolated, behind
it initial or isolated, before kashida initial or medial, and behind it medial or final. -/
def JoinsByKind (tables : ShaperTables) (m : Memory) (text : Int) (chars : List Char) : Prop :=
  ∃ shaped, ShapesTo tables m text shaped ∧
    (∀ position letter, chars[position]? = some letter → letter = hamza ∨ letter = kashida →
      tables.units chars = tables.units (chars.take position) ++
        ⟨none, letter, runeValue letter⟩ :: tables.units (chars.drop (position + 1))) ∧
    ∀ before unit behind entry, tables.units chars = before ++ unit :: behind →
      ShaperTables.markUnit unit = false →
      tables.findLutEntryByCodept unit.codept = some entry →
      (ShaperTables.lastLetter before).any ShaperTables.drawnAlike = true ∨
        (ShaperTables.firstLetter behind).any ShaperTables.drawnAlike = true →
      shaped[(before.flatMap TextUnit.runes).length + unit.first.toList.length]? =
        some (entry.formChar (tables.formByKind (ShaperTables.lastLetter before) unit
          (ShaperTables.firstLetter behind)))

/-- The letters next to every hamza look the same joined to it and not. -/
def HarmlessHamza (tables : ShaperTables) (chars : List Char) : Prop :=
  tables.harmlessUnits none (tables.units chars) = true

instance (tables : ShaperTables) (chars : List Char) : Decidable (HarmlessHamza tables chars) :=
  inferInstanceAs (Decidable (_ = true))

namespace RuntimeTables

variable {forms : FormsTable} {packed : PackState}
  {pairs : List (CharacterForms × ShaperLUTEntry)} {tables : ShaperTables}
  (runtime : RuntimeTables forms packed pairs tables)

include runtime

/-- The record of a letter that is drawn alike everywhere has no distances. -/
theorem findLutEntryByCodept_drawnAlike {letter : Char} (alike : DrawnAlike forms.items letter) :
    ∃ entry, tables.findLutEntryByCodept letter.toNat = some entry ∧
      ∀ form, entry.delta form = 0 := by
  obtain ⟨glyph, member⟩ := alike
  obtain ⟨entry, inPairs⟩ := runtime.exists_pair member
  have trueCodept := runtime.done.letter _ inPairs letter rfl
  refine ⟨entry, ?_, ?_⟩
  · rw [← trueCodept]
    exact runtime.findLutEntryByCodept_pair inPairs
  · obtain ⟨isolated, initial, medial, final, lookups, -, initialEq, medialEq, finalEq⟩ :=
      runtime.done.forms _ inPairs
    obtain ⟨first, second, third, last, -⟩ : packed.selectedGlyphs.lookup glyph = some isolated ∧
        packed.selectedGlyphs.lookup glyph = some initial ∧
        packed.selectedGlyphs.lookup glyph = some medial ∧
        packed.selectedGlyphs.lookup glyph = some final ∧ True := by simpa using lookups
    obtain rfl := Option.some.inj (first.symm.trans second)
    obtain rfl := Option.some.inj (first.symm.trans third)
    obtain rfl := Option.some.inj (first.symm.trans last)
    intro form
    cases form with
    | isolated => rfl
    | initial => exact initialEq.trans (sub_self _)
    | medial => exact medialEq.trans (sub_self _)
    | final => exact finalEq.trans (sub_self _)

/-- A letter that is in no ligature stands alone. -/
theorem units_of_letter {letter : Char} (inItems : ∃ glyphs, ([letter], glyphs) ∈ forms.items)
    (own : ∀ item ∈ forms.items, letter ∈ item.1 → item.1 = [letter]) {chars : List Char}
    {position : Nat} (here : chars[position]? = some letter) :
    tables.units chars = tables.units (chars.take position) ++
      ⟨none, letter, runeValue letter⟩ :: tables.units (chars.drop (position + 1)) := by
  obtain ⟨glyphs, member⟩ := inItems
  have value : runeValue letter = letter.toNat := by
    have small := (forms.letters _ member letter (by simp)).upper
    exact runeValue_of_lt (by omega)
  have notLigature {first second : Nat} (ligates : tables.ligature first second ≠ 0) :
      first ≠ letter.toNat ∧ second ≠ letter.toNat := by
    obtain ⟨pair, inPairs, a, b, key, rfl, rfl, -⟩ := runtime.exists_pair_of_ligature ligates
    have inItems := runtime.item_mem inPairs
    constructor <;> intro same <;> rw [Char.toNat_inj] at same <;> subst same <;>
      simpa [key] using own _ inItems (by simp [key])
  obtain ⟨bound, rfl⟩ := List.getElem?_eq_some_iff.mp here
  rw [← ShaperTables.units_append_letter, List.getElem_cons_drop, List.take_append_drop]
  · intro second
    by_contra ligates
    exact (notLigature ligates).1 value
  · intro first
    by_contra ligates
    exact (notLigature ligates).2 value

end RuntimeTables

/-- Tables for an alphabet with hamza and kashida. -/
structure HamzaTables (forms : FormsTable) (packed : PackState)
    (pairs : List (CharacterForms × ShaperLUTEntry)) (tables : ShaperTables) : Prop
    extends RuntimeTables forms packed pairs tables where
  ligaturesOfLetters : forms.LigaturesOfLetters
  noZeroWidth : forms.NoZeroWidth
  hamzaAlike : DrawnAlike forms.items hamza
  hamzaOwn : ∀ item ∈ forms.items, hamza ∈ item.1 → item.1 = [hamza]
  kashidaAlike : DrawnAlike forms.items kashida
  kashidaOwn : ∀ item ∈ forms.items, kashida ∈ item.1 → item.1 = [kashida]

/-- The tables that are generated for an alphabet in which hamza is drawn alike everywhere. -/
theorem exists_hamzaTables {subset : Subset} {hbShape : List Char → Except PyError (List Nat)}
    {kashidaGlyph : Nat} {items : List CharacterForms}
    (formsRun : generateForms hbShape kashidaGlyph (shapedAlphabet subset) ligatures = .ok items)
    (draws : DrawsHamza hbShape kashidaGlyph) {unicodedataName : Char → Option String}
    {tables : ShaperTables} (run : generateTables unicodedataName items = .ok tables) :
    ∃ forms packed pairs, HamzaTables forms packed pairs tables := by
  have hamzaAlike := drawnAlike_hamza formsRun draws
  have kashidaAlike := drawnAlike_kashida formsRun
  have keys := (generateForms_ok formsRun).1
  have inKeys : ∀ item ∈ items, item.1 ∈ formKeys subset := by
    intro item member
    rw [formKeys, ← keys]
    exact List.mem_map_of_mem member
  obtain ⟨forms, rfl, ligaturesOfLetters, noZeroWidth⟩ := exists_formsTable formsRun
  obtain ⟨packed, pairs, -, runtime, -⟩ := generateTables_ok run
  exact ⟨forms, packed, pairs, runtime, ligaturesOfLetters, noZeroWidth, hamzaAlike,
    fun item member => (mem_formKeys (inKeys item member)).2.2.1, kashidaAlike,
    fun item member => (mem_formKeys (inKeys item member)).2.2.2⟩

namespace HamzaTables

variable {forms : FormsTable} {packed : PackState}
  {pairs : List (CharacterForms × ShaperLUTEntry)} {tables : ShaperTables}
  (hamzaTables : HamzaTables forms packed pairs tables)

include hamzaTables

theorem alikeHamza : tables.HamzaAlike := by
  obtain ⟨entry, found, alike⟩ :=
    hamzaTables.findLutEntryByCodept_drawnAlike hamzaTables.hamzaAlike
  refine ⟨⟨entry, found⟩, fun other otherFound => ?_⟩
  obtain rfl := Option.some.inj (found.symm.trans otherFound)
  exact alike

/-- The runtime takes hamza and kashida for letters that join both sides. -/
theorem drawnAlike_joins {unit : TextUnit} (alike : ShaperTables.drawnAlike unit = true) :
    tables.unitDualJoining unit = true ∧ tables.unitShapable unit = true := by
  have ofEntry {entry : ShaperLUTEntry}
      (found : tables.findLutEntryByCodept unit.codept = some entry)
      (deltas : ∀ form, entry.delta form = 0) :
      tables.unitDualJoining unit = true ∧ tables.unitShapable unit = true := by
    have final : entry.finalCodeptDelta = 0 := deltas .final
    simp [ShaperTables.unitDualJoining, ShaperTables.unitShapable, found, final]
  rw [ShaperTables.drawnAlike, Bool.or_eq_true, beq_iff_eq, beq_iff_eq] at alike
  rcases alike with isHamza | isKashida
  · obtain ⟨entry, found, deltas⟩ :=
      hamzaTables.findLutEntryByCodept_drawnAlike hamzaTables.hamzaAlike
    exact ofEntry (isHamza ▸ found) deltas
  · obtain ⟨entry, found, deltas⟩ :=
      hamzaTables.findLutEntryByCodept_drawnAlike hamzaTables.kashidaAlike
    exact ofEntry (isKashida ▸ found) deltas

/-- Next to hamza and kashida no unit is stranded. -/
theorem unstranded_of_drawnAlike {previous : Option TextUnit} (unit : TextUnit)
    {behind : List TextUnit} (near : previous.any ShaperTables.drawnAlike = true ∨
      (ShaperTables.firstLetter behind).any ShaperTables.drawnAlike = true) :
    tables.strandedUnit previous unit behind = false := by
  rcases near with before | next
  · cases previous with
    | none => cases before
    | some letter => simp [ShaperTables.strandedUnit, (hamzaTables.drawnAlike_joins before).1]
  · have goesOn : (ShaperTables.firstLetter behind).any tables.unitShapable = true := by
      cases found : ShaperTables.firstLetter behind with
      | none =>
          rw [found] at next
          cases next
      | some letter =>
          rw [found] at next
          exact (hamzaTables.drawnAlike_joins next).2
    rw [ShaperTables.firstLetter] at goesOn
    simp [ShaperTables.strandedUnit, goesOn]

/-- The forms of the letters around hamza and kashida are those of their kinds exactly if hamza
does no harm. -/
theorem joinsByKind_iff {m : Memory} {text : Int} {chars : List Char}
    (stands : TextAt m text chars)
    (plane : ∀ c ∈ chars, c ≠ '\x00' ∧ c.toNat < 0x10000) :
    JoinsByKind tables m text chars ↔ HarmlessHamza tables chars := by
  have runtime := hamzaTables.toRuntimeTables
  have lead := runtime.ligaturesLead hamzaTables.ligaturesOfLetters
  have marksAlone := (runtime.wideLigatures hamzaTables.noZeroWidth).marksAlone chars
  have written {before behind : List TextUnit} {unit : TextUnit} {entry : ShaperLUTEntry}
      (split : tables.units chars = before ++ unit :: behind)
      (letter : ShaperTables.markUnit unit = false)
      (found : tables.findLutEntryByCodept unit.codept = some entry) :
      (tables.shapeChars chars)[
          (before.flatMap TextUnit.runes).length + unit.first.toList.length]? =
        some (entry.formChar (entry.formIn
          ((ShaperTables.lastLetter before).any tables.unitDualJoining)
          (tables.unitsFollowing behind))) := by
    have alone := ShaperTables.first_of_markUnit lead chars
    rw [split] at alone
    rw [tables.shapeChars_eq_writtenUnits lead marksAlone, split,
      ShaperTables.writtenUnits_getElem? before behind letter found
        (fun other member => alone other (List.mem_append_left _ member)), Option.or_none]
  rw [HarmlessHamza, ShaperTables.harmlessUnits_iff]
  constructor
  · rintro ⟨shaped, shapes, -, forms⟩ before unit behind split letter
    obtain rfl := (runtime.shapesTo_iff stands plane shaped).mp shapes
    rw [Option.or_none]
    by_cases near : (ShaperTables.lastLetter before).any ShaperTables.drawnAlike = true ∨
        (ShaperTables.firstLetter behind).any ShaperTables.drawnAlike = true
    · cases found : tables.findLutEntryByCodept unit.codept with
      | none => rw [ShaperTables.harmlessUnit, found]
      | some entry =>
          have form := forms before unit behind entry split letter found near
          rw [written split letter found] at form
          exact (hamzaTables.alikeHamza.formChar_formByKind_iff runtime.sound found
            (hamzaTables.unstranded_of_drawnAlike unit near)).mp (Option.some.inj form)
    · exact ShaperTables.harmlessUnit_of_not_drawnAlike unit near
  · intro harmless
    refine ⟨_, (runtime.shapesTo_iff stands plane _).mpr rfl, ?_, ?_⟩
    · rintro position letter here (rfl | rfl)
      · obtain ⟨glyph, member⟩ := hamzaTables.hamzaAlike
        exact runtime.units_of_letter ⟨_, member⟩ hamzaTables.hamzaOwn here
      · obtain ⟨glyph, member⟩ := hamzaTables.kashidaAlike
        exact runtime.units_of_letter ⟨_, member⟩ hamzaTables.kashidaOwn here
    · intro before unit behind entry split letter found near
      have unharmed := harmless before unit behind split letter
      rw [Option.or_none] at unharmed
      rw [written split letter found]
      exact congrArg some ((hamzaTables.alikeHamza.formChar_formByKind_iff runtime.sound found
        (hamzaTables.unstranded_of_drawnAlike unit near)).mpr unharmed)

end HamzaTables

/-- Where `hb-shape` draws hamza alike everywhere, `shape_text` keeps its neighbours apart
exactly when the letter before it and the letter behind it look the same joined and not. -/
theorem shapeText_joinsByKind_iff {subset : Subset}
    {hbShape : List Char → Except PyError (List Nat)} {kashidaGlyph : Nat}
    {items : List CharacterForms}
    (formsRun : generateForms hbShape kashidaGlyph (shapedAlphabet subset) ligatures = .ok items)
    (draws : DrawsHamza hbShape kashidaGlyph) {unicodedataName : Char → Option String}
    {tables : ShaperTables} (run : generateTables unicodedataName items = .ok tables)
    {m : Memory} {text : Int} {chars : List Char} (stands : TextAt m text chars)
    (plane : ∀ c ∈ chars, c ≠ '\x00' ∧ c.toNat < 0x10000) :
    JoinsByKind tables m text chars ↔ HarmlessHamza tables chars := by
  obtain ⟨forms, packed, pairs, hamzaTables⟩ := exists_hamzaTables formsRun draws run
  exact hamzaTables.joinsByKind_iff stands plane

/-- A font that draws the letters of the Arabic alphabet as they join. -/
def sampleHbShape (txt : List Char) : Except PyError (List Nat) :=
  let core := txt.filter (· != kashida)
  let before := txt.head? == some kashida
  let behind := txt.getLast? == some kashida
  let form :=
    if core = [hamza] then 0
    else if core.getLast?.any (· ∈ "ادذرزوآأإة".toList) then if before then 3 else 0
    else if before then if behind then 2 else 3
    else if behind then 1 else 0
  .ok ((if before then [1] else []) ++ [8 * (core.map Char.toNat).sum + form] ++
    if behind then [1] else [])

def sampleItems : List CharacterForms :=
  ((generateForms sampleHbShape 1 (shapedAlphabet .arabic) ligatures).toOption).getD []

def sampleTables : ShaperTables :=
  ((generateTables (fun _ => some "") sampleItems).toOption).getD ⟨[], [], []⟩

/-- The sample font gives tables, in which hamza is harmless behind dal and not behind beh. -/
theorem harmlessHamza_sample :
    (generateForms sampleHbShape 1 (shapedAlphabet .arabic) ligatures).isOk = true ∧
      (generateTables (fun _ => some "") sampleItems).isOk = true ∧
      HarmlessHamza sampleTables ['د', 'ء', ' ', 'ب'] ∧
      ¬ HarmlessHamza sampleTables ['ب', 'ء', 'ب'] := by
  decide +kernel

theorem generateForms_sample :
    generateForms sampleHbShape 1 (shapedAlphabet .arabic) ligatures = .ok sampleItems :=
  eq_ok_of_isOk harmlessHamza_sample.1 []

theorem generateTables_sample :
    generateTables (fun _ => some "") sampleItems = .ok sampleTables :=
  eq_ok_of_isOk harmlessHamza_sample.2.1 _

theorem drawsHamza_sample : DrawsHamza sampleHbShape 1 :=
  ⟨8 * hamza.toNat, by
    intro chComp member
    fin_cases member
    all_goals exact ⟨_, rfl, by decide⟩⟩

/-- Dal joins nothing behind it, and a space joins nothing. -/
theorem shapeText_joinsByKind_dal :
    JoinsByKind sampleTables (.ofBytes 0 (encode ['د', 'ء', ' ', 'ب'] ++ [0])) 0
      ['د', 'ء', ' ', 'ب'] :=
  (shapeText_joinsByKind_iff generateForms_sample drawsHamza_sample generateTables_sample
    (textAt_ofBytes 0 _) (by decide)).mpr harmlessHamza_sample.2.2.1

/-- Between two letters beh, hamza makes the first one initial and the second one final. -/
theorem not_joinsByKind_beh :
    ShapesTo sampleTables (.ofBytes 0 (encode ['ب', 'ء', 'ب'] ++ [0])) 0
        ['\u070A', '\u0700', '\u070C'] ∧
      ¬ JoinsByKind sampleTables (.ofBytes 0 (encode ['ب', 'ء', 'ب'] ++ [0])) 0
        ['ب', 'ء', 'ب'] := by
  obtain ⟨forms, packed, pairs, hamzaTables⟩ :=
    exists_hamzaTables generateForms_sample drawsHamza_sample generateTables_sample
  have stands := textAt_ofBytes 0 ['ب', 'ء', 'ب']
  constructor
  · rw [hamzaTables.shapesTo_iff stands (by decide)]
    decide +kernel
  · rw [hamzaTables.joinsByKind_iff stands (by decide)]
    exact harmlessHamza_sample.2.2.2

end Elbbep
