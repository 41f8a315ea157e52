import Elbbep.UnshapedText
import Elbbep.TableAgreement

/-!
# Unshaping undoes shaping

When no glyph serves two keys, each recycled codepoint leads back to the one
letter or ligature it was assigned for.  The unshaping pass then restores every
text that `shape_text` has shaped, provided that the text held no recycled
codepoints to begin with.
-/

namespace Elbbep

open ByteMemory Utf8Encoding

section RoundTrip

variable {forms : FormsTable} {packed : PackState}
  {pairs : List (CharacterForms × ShaperLUTEntry)} {tables : ShaperTables}

namespace GeneratedTables

/-- With unshared glyphs a form determines its key. -/
theorem pair_eq_of_form (generated : GeneratedTables forms packed pairs tables)
    (unshared : forms.UnsharedGlyphs) {first second : CharacterForms × ShaperLUTEntry}
    (firstMem : first ∈ pairs) (secondMem : second ∈ pairs) {firstForm secondForm : LetterForm}
    (same : first.2.formCodept firstForm = second.2.formCodept secondForm) : first = second := by
  obtain ⟨glyph, codept, inFirst, firstFound, firstEq⟩ :=
    (generated.done.forms first firstMem).formCodept_eq firstForm
  obtain ⟨other, otherCodept, inSecond, secondFound, secondEq⟩ :=
    (generated.done.forms second secondMem).formCodept_eq secondForm
  have codeptEq : codept = otherCodept := by
    rw [firstEq, secondEq] at same
    exact Int.ofNat_inj.mp same
  subst codeptEq
  obtain rfl := generated.glyph_eq_of_codept firstFound secondFound
  have items := unshared first.1 (generated.item_mem firstMem) second.1
    (generated.item_mem secondMem) glyph (List.mem_of_getElem? inFirst)
    (List.mem_of_getElem? inSecond)
  exact generated.pair_eq firstMem secondMem (congrArg Prod.fst items)

variable (generated : GeneratedTables forms packed pairs tables)

include generated

theorem range_of_form {pair : CharacterForms × ShaperLUTEntry} (member : pair ∈ pairs)
    (form : LetterForm) :
    tables.arabicShaperRange (pair.2.formCodept form).toNat = true := by
  obtain ⟨glyph, codept, -, found, eq⟩ :=
    (generated.done.forms pair member).formCodept_eq form
  rw [generated.range_iff, eq]
  exact generated.done.allocated.lookup_dirtied found

/-- Every form of a key is unshaped to the key. -/
theorem unshapedCodepts_form (unshared : forms.UnsharedGlyphs)
    {pair : CharacterForms × ShaperLUTEntry} (member : pair ∈ pairs) (form : LetterForm) :
    tables.unshapedCodepts (runeValue (pair.2.formChar form)) = pair.1.1.map Char.toNat := by
  have found := generated.findLutEntryByCodept_pair member
  have bounds := generated.sound.form_two_byte _ _ found form
  have value : runeValue (pair.2.formChar form) = (pair.2.formCodept form).toNat := by
    have charEq := (generated.sound.form_two_byte _ _ found).formChar_toNat form
    rw [runeValue_of_lt (by omega), charEq]
  rw [value, ShaperTables.unshapedCodepts, generated.range_of_form member form]
  simp only [Bool.not_true, Bool.false_eq_true, if_false]
  rcases findBaseCodeptByShaped_cases generated.entries_eq (pair.2.formCodept form).toNat with
    ⟨-, none⟩ | ⟨other, otherMem, ⟨otherForm, same⟩, baseEq⟩
  · exact absurd (Int.toNat_of_nonneg (by omega)).symm (none pair member form)
  · rw [Int.toNat_of_nonneg (by omega)] at same
    obtain rfl := generated.pair_eq_of_form unshared otherMem member same
    have trueBounds := generated.entry_two_byte (Option.isSome_of_eq_some found)
    have nonzero : other.2.trueCodept ≠ 0 := by omega
    rw [baseEq, if_neg nonzero]
    exact generated.ligatureLetters_pair otherMem

end GeneratedTables

/-- The runes of `key`, the last of which is `c`, are read as `codept`: a rune as
itself, or two runes as their ligature. -/
inductive ReadsAs (tables : ShaperTables) : (key : List Char) → (codept : Nat) → (c : Char) → Prop
  | own (c : Char) : ReadsAs tables [c] (runeValue c) c
  | ligature (a c : Char) (ligates : tables.ligature (runeValue a) (runeValue c) ≠ 0) :
      ReadsAs tables [a, c] (tables.ligature (runeValue a) (runeValue c)) c

/-- A character of the basic plane that is no recycled codepoint. -/
structure Unrecycled (tables : ShaperTables) (c : Char) : Prop where
  nonzero : c ≠ '\x00'
  plane : c.toNat < 0x10000
  outside : tables.arabicShaperRange c.toNat = false

instance (tables : ShaperTables) (c : Char) : Decidable (Unrecycled tables c) :=
  decidable_of_iff
    (c ≠ '\x00' ∧ c.toNat < 0x10000 ∧ tables.arabicShaperRange c.toNat = false)
    ⟨fun h => ⟨h.1, h.2.1, h.2.2⟩, fun h => ⟨h.nonzero, h.plane, h.outside⟩⟩

namespace GeneratedTables

variable (generated : GeneratedTables forms packed pairs tables)
  (unshared : forms.UnsharedGlyphs)

include generated

/-- An unrecycled rune with an entry is a letter of the table. -/
theorem key_of_find {c : Char} (unrecycled : Unrecycled tables c) {entry : ShaperLUTEntry}
    (found : tables.findLutEntryByCodept (runeValue c) = some entry) :
    ∃ pair ∈ pairs, pair.2 = entry ∧ pair.1.1 = [c] := by
  obtain ⟨pair, member, rfl, trueEq⟩ := generated.exists_pair_of_find found
  rw [runeValue_of_lt unrecycled.plane] at trueEq
  refine ⟨pair, member, rfl, ?_⟩
  rcases generated.key_cases member with ⟨d, key, -, codeptEq⟩ | ⟨a, b, -, -, -, ligature⟩
  · rw [key, Char.toNat_inj.mp (codeptEq.symm.trans trueEq)]
  · have dirtied := generated.mem_dirtied_iff.mpr (Or.inr ⟨_, ligature, trueEq⟩)
    have inside := (generated.range_iff _).mpr dirtied
    rw [unrecycled.outside] at inside
    cases inside

include unshared

/-- Unshaping a shaped rune yields the runes it was read from. -/
theorem unshapedCodepts_shapedChar {key : List Char} {codept : Nat} {c : Char}
    (reads : ReadsAs tables key codept c) (unrecycled : ∀ d ∈ key, Unrecycled tables d)
    (joined : Bool) (rest : List Char) :
    tables.unshapedCodepts (runeValue (tables.shapedChar joined codept c rest)) =
        key.map Char.toNat ∨
      key = [c] ∧ tables.shapedChar joined codept c rest = c ∧
        tables.unshapedCodepts (runeValue c) = [] := by
  cases reads with
  | own c =>
      have here := unrecycled c (by simp)
      have kept : tables.unshapedCodepts (runeValue c) = [] := by
        apply tables.unshapedCodepts_outside
        rw [runeValue_of_lt here.plane]
        exact here.outside
      by_cases zeroWidth : isZeroWidth (runeValue c) = true
      · exact Or.inr ⟨rfl, by simp [ShaperTables.shapedChar, zeroWidth], kept⟩
      · cases found : tables.findLutEntryByCodept (runeValue c) with
        | none => exact Or.inr ⟨rfl, by simp [ShaperTables.shapedChar, zeroWidth, found], kept⟩
        | some entry =>
            obtain ⟨pair, member, rfl, key⟩ := generated.key_of_find here found
            left
            simp only [ShaperTables.shapedChar, zeroWidth, found]
            rw [← key]
            exact generated.unshapedCodepts_form unshared member _
  | ligature a c ligates =>
      left
      obtain ⟨pair, member, a', b', key, firstEq, secondEq, eq, -, -, scratch⟩ :=
        generated.exists_pair_of_ligature ligates
      have firstHere := unrecycled a (by simp)
      have secondHere := unrecycled c (by simp)
      rw [runeValue_of_lt firstHere.plane, Char.toNat_inj] at firstEq
      rw [runeValue_of_lt secondHere.plane, Char.toNat_inj] at secondEq
      subst firstEq secondEq
      rw [eq, ShaperTables.shapedChar, isZeroWidth_scratch scratch,
        generated.findLutEntryByCodept_pair member, ← key]
      exact generated.unshapedCodepts_form unshared member _

theorem unshapeStep_shapedChar {key : List Char} {codept : Nat} {c : Char}
    (reads : ReadsAs tables key codept c) (unrecycled : ∀ d ∈ key, Unrecycled tables d)
    (joined : Bool) (rest done : List Char) :
    tables.unshapeStep (done ++ List.replicate (key.length - 1) placeholder)
      (tables.shapedChar joined codept c rest) = done ++ key := by
  unfold ShaperTables.unshapeStep
  rcases generated.unshapedCodepts_shapedChar unshared reads unrecycled joined rest with
    rewritten | ⟨keyEq, charEq, kept⟩
  · have nonempty : key.length ≠ 0 := by cases reads <;> simp
    have width : key.length = (List.replicate (key.length - 1) placeholder ++
        [tables.shapedChar joined codept c rest]).length := by
      simp
      omega
    rw [rewritten, List.length_map, List.append_assoc, List.rdrop, List.length_append, ← width,
      Nat.add_sub_cancel, List.take_left, List.map_map]
    simp [Function.comp_def]
  · simp [keyEq, charEq, kept]

/-- Unshaping restores the text from any rune on, with the placeholder of a
ligature behind it. -/
theorem foldl_shapeFrom {key : List Char} {codept : Nat} {c : Char} {rest : List Char}
    (reads : ReadsAs tables key codept c)
    (unrecycled : ∀ d ∈ key ++ rest, Unrecycled tables d) (joined : Bool) (done : List Char) :
    (tables.shapeFrom joined codept c rest).foldl tables.unshapeStep
        (done ++ List.replicate (key.length - 1) placeholder) = done ++ key ++ rest := by
  induction rest generalizing key codept c joined done with
  | nil =>
      have here := generated.unshapeStep_shapedChar unshared reads
        (fun d member => unrecycled d (by simp [member])) joined [] done
      simp [ShaperTables.shapeFrom, here]
  | cons d rest ih =>
      have here := generated.unshapeStep_shapedChar unshared reads
        (fun e member => unrecycled e (by simp [member])) joined (d :: rest) done
      by_cases noLigature : tables.ligature codept (runeValue d) = 0
      · have next := ih (.own d) (fun e member => unrecycled e (by simp at member ⊢; tauto))
          (tables.joinsNext joined codept (d :: rest)) (done ++ key)
        simpa [ShaperTables.shapeFrom, noLigature, here] using next
      · cases reads with
        | ligature a c ligates => exact absurd (generated.ligature_ligature ligates) noLigature
        | own c =>
            have next := ih (.ligature c d noLigature)
              (fun e member => unrecycled e (by simp at member ⊢; tauto)) joined done
            have kept := generated.unshapedCodepts_placeholder
            simpa [ShaperTables.shapeFrom, noLigature, ShaperTables.unshapeStep, kept] using next

/-- Expanded ligatures of a shaped text stand behind their placeholders. -/
theorem expansionsFit_shapeFrom {key : List Char} {codept : Nat} {c : Char} {rest : List Char}
    (reads : ReadsAs tables key codept c)
    (unrecycled : ∀ d ∈ key ++ rest, Unrecycled tables d) (joined : Bool) {previousSize : Nat}
    (previous : key.length = 2 → previousSize = 2) :
    tables.ExpansionsFit previousSize (tables.shapeFrom joined codept c rest) := by
  have fits {key : List Char} {codept : Nat} {c : Char} {previousSize : Nat}
      (reads : ReadsAs tables key codept c) (unrecycled : ∀ d ∈ key, Unrecycled tables d)
      (previous : key.length = 2 → previousSize = 2) (joined : Bool) (follow : List Char) :
      (tables.unshapedCodepts (runeValue (tables.shapedChar joined codept c follow))).length = 2 →
        previousSize = 2 := by
    rcases generated.unshapedCodepts_shapedChar unshared reads unrecycled joined follow with
      rewritten | ⟨-, charEq, kept⟩
    · simpa [rewritten] using previous
    · simp [charEq, kept]
  induction rest generalizing key codept c joined previousSize with
  | nil =>
      exact ⟨fits reads (fun d member => unrecycled d (by simp [member])) previous joined [],
        trivial⟩
  | cons d rest ih =>
      rw [ShaperTables.shapeFrom]
      by_cases noLigature : tables.ligature codept (runeValue d) = 0
      · rw [if_neg (by simpa using noLigature)]
        refine ⟨fits reads (fun e member => unrecycled e (by simp [member])) previous joined _, ?_⟩
        exact ih (.own d) (fun e member => unrecycled e (by simp at member ⊢; tauto)) _ (by simp)
      · rw [if_pos noLigature]
        cases reads with
        | ligature a c ligates => exact absurd (generated.ligature_ligature ligates) noLigature
        | own c =>
            have kept := generated.unshapedCodepts_placeholder
            refine ⟨by simp [kept], ih (.ligature c d noLigature)
              (fun e member => unrecycled e (by simp at member ⊢; tauto)) joined ?_⟩
            exact fun _ => placeholder_size

theorem unshapeChars_shapeChars {chars : List Char}
    (unrecycled : ∀ c ∈ chars, Unrecycled tables c) :
    tables.unshapeChars (tables.shapeChars chars) = chars := by
  cases chars with
  | nil => rfl
  | cons c rest => exact generated.foldl_shapeFrom unshared (.own c) unrecycled false []

theorem expansionsFit_shapeChars {chars : List Char}
    (unrecycled : ∀ c ∈ chars, Unrecycled tables c) :
    tables.ExpansionsFit 0 (tables.shapeChars chars) := by
  cases chars with
  | nil => trivial
  | cons c rest =>
      exact generated.expansionsFit_shapeFrom unshared (.own c) unrecycled false (by simp)

end GeneratedTables

end RoundTrip

/-- `shape_text` followed by `unshape_text` restores the memory around a text
without recycled codepoints, with any tables generated from a forms table that
shares no glyph between its keys. -/
theorem shapeText_unshapeText {unicodedataName : Char → Option String} {forms : FormsTable}
    (unshared : forms.UnsharedGlyphs) {tables : ShaperTables}
    (run : generateTables unicodedataName forms.items = .ok tables)
    {m : Memory} {text : Int} {chars : List Char} (stands : TextAt m text chars)
    (unrecycled : ∀ c ∈ chars, Unrecycled tables c) :
    ∃ shaped restored, shapeText tables m text = .ok shaped ∧
      unshapeText tables shaped text = .ok restored ∧ restored.byte = m.byte := by
  obtain ⟨packed, pairs, generated⟩ := exists_generatedTables run
  have plane : ∀ c ∈ chars, c ≠ '\x00' ∧ c.toNat < 0x10000 :=
    fun c member => ⟨(unrecycled c member).nonzero, (unrecycled c member).plane⟩
  have shapable := generated.shapable plane
  obtain ⟨shaped, shapeRun, shapedStands, shapedWrites⟩ :=
    shapeText_spec generated.sound shapable stands
  have restorable := generated.restorable (generated.shapeChars_plane plane)
  obtain ⟨restored, unshapeRun, restoredStands, -, restoredWrites⟩ := unshapeText_spec
    generated.restores restorable (generated.expansionsFit_shapeChars unshared unrecycled)
    shapedStands
  refine ⟨shaped, restored, shapeRun, unshapeRun, ?_⟩
  rw [generated.unshapeChars_shapeChars unshared unrecycled] at restoredStands
  rw [shapeChars_sizes generated.sound shapable] at restoredWrites
  exact restoredStands.byte_eq stands (shapedWrites.trans restoredWrites).withinText

/-- A ligature, a letter with a mark and a break. -/
def lamAlefText : List Char :=
  ['ل', 'ا', ' ', 'ل', '\u064B', 'ا', 'x']

theorem shapeText_unshapeText_lamAlef :
    ∃ shaped restored,
      shapeText lamAlefTables (.ofBytes 0 (encode lamAlefText ++ [0])) 0 = .ok shaped ∧
        unshapeText lamAlefTables shaped 0 = .ok restored ∧
        restored.byte = (Memory.ofBytes 0 (encode lamAlefText ++ [0])).byte :=
  shapeText_unshapeText (by decide) generateTables_lamAlefForms
    (textAt_ofBytes 0 lamAlefText) (by decide)

end Elbbep
