import Elbbep.ShapeIdempotence
import Elbbep.Patch

/-!
# Paragraph alignment of shaped text

`gdt_alignment_step` looks for the first opinionated rune, which is neither neutral
nor a numeral, and decides by it.  The draw hook calls it on text that has been shaped
already.  Letters become recycled codepoints, which are right-to-left as well, and the
placeholder of a ligature is neutral but stands in front of one of them; so the
decision is the same.
-/

namespace Elbbep

open ByteMemory Utf8Encoding ShaperTables

/-- A rune that the alignment is decided by. -/
def opinionated (codept : Nat) : Bool :=
  !(isNeutral codept || isWeakLtr codept)

/-- What the first opinionated rune says. -/
def ShaperTables.firstOpinion (tables : ShaperTables) (alignment : GTextAlignment) :
    List Char → GTextAlignment
  | [] => alignment
  | c :: rest =>
      if opinionated (runeValue c) then
        if tables.isRtl (runeValue c) then .right else alignment
      else tables.firstOpinion alignment rest

section Loop

variable {tables : ShaperTables} {m : Memory} {text : Int} {alignment : GTextAlignment}

/-- The loop behind the runes `before`. -/
theorem alignmentLoop_eq {before rest : List Char} (stands : TextAt m text (before ++ rest))
    (nonzero : ∀ c ∈ rest, c ≠ '\x00') {fuel : Nat} (enough : rest.length + 1 ≤ fuel) :
    alignmentLoop tables m alignment fuel (text + byteLength before) =
      .ok (tables.firstOpinion alignment rest) := by
  induction rest generalizing before fuel with
  | nil =>
      obtain ⟨fuel, rfl⟩ : ∃ less, fuel = less + 1 := ⟨fuel - 1, by omega⟩
      rw [List.append_nil] at stands
      rw [alignmentLoop, stands.load_terminator]
      rfl
  | cons c rest ih =>
      obtain ⟨fuel, rfl⟩ : ∃ less, fuel = less + 1 := ⟨fuel - 1, by omega⟩
      obtain ⟨byte, load, byteNonzero⟩ := stands.load_lead (nonzero c (by simp))
      have next : TextAt m text ((before ++ [c]) ++ rest) := by simpa using stands
      have later : alignmentLoop tables m alignment fuel (text + byteLength (before ++ [c])) = _ :=
        ih next (fun d member => nonzero d (by simp [member])) (by simp at enough; omega)
      simp only [alignmentLoop, load, bind, Except.bind, ne_eq, byteNonzero, not_false_eq_true,
        if_true, stands.readUtf8_eq, later, firstOpinion, opinionated]
      by_cases undecided : (isNeutral (runeValue c) || isWeakLtr (runeValue c)) = true
      · simp [undecided]
      · by_cases rtl : tables.isRtl (runeValue c) = true <;> simp [undecided, rtl]

/-- `gdt_alignment_step` on a text. -/
theorem gdtAlignmentStep_eq {chars : List Char} (stands : TextAt m text chars)
    (nonzero : ∀ c ∈ chars, c ≠ '\x00') :
    gdtAlignmentStep tables m text alignment =
      .ok (if alignment = .left then tables.firstOpinion alignment chars else alignment) := by
  rw [gdtAlignmentStep]
  split
  · have start : TextAt m text ([] ++ chars) := stands
    have long := length_le_byteLength chars
    have high := stands.high_gt
    have loop : alignmentLoop tables m alignment ((m.high - text).toNat + 1)
        (text + byteLength []) = _ := alignmentLoop_eq start nonzero (by omega)
    simpa using loop
  · rfl

end Loop

/-! ## Opinions of shaped text -/

/-- The letters of a forms table are right-to-left, and neither neutral nor numerals. -/
def FormsTable.RtlLetters (forms : FormsTable) (tables : ShaperTables) : Prop :=
  ∀ item ∈ forms.items, ∀ c ∈ item.1,
    tables.isRtl c.toNat = true ∧ isNeutral c.toNat = false ∧ isWeakLtr c.toNat = false

instance (forms : FormsTable) (tables : ShaperTables) : Decidable (forms.RtlLetters tables) :=
  inferInstanceAs (Decidable (∀ item ∈ forms.items, ∀ c ∈ item.1, _))

/-- A rune that decides for alignment on the right. -/
def ShaperTables.decidesRight (tables : ShaperTables) (codept : Nat) : Bool :=
  opinionated codept && tables.isRtl codept

section Opinions

variable {tables : ShaperTables} {alignment : GTextAlignment}

theorem firstOpinion_of_decidesRight {c : Char} (right : tables.decidesRight (runeValue c) = true)
    (rest : List Char) : tables.firstOpinion alignment (c :: rest) = .right := by
  obtain ⟨opinion, rtl⟩ : opinionated (runeValue c) = true ∧ tables.isRtl (runeValue c) = true := by
    simpa [decidesRight] using right
  rw [firstOpinion, if_pos opinion, if_pos rtl]

theorem firstOpinion_congr {c : Char} {rest rest' : List Char}
    (same : tables.firstOpinion alignment rest = tables.firstOpinion alignment rest') :
    tables.firstOpinion alignment (c :: rest) = tables.firstOpinion alignment (c :: rest') := by
  rw [firstOpinion, firstOpinion, same]

variable {forms : FormsTable} {packed : PackState}
  {pairs : List (CharacterForms × ShaperLUTEntry)}
  (generated : GeneratedTables forms packed pairs tables)

include generated

/-- Recycled codepoints decide for the right. -/
theorem GeneratedTables.decidesRight_dirtied {codept : Nat}
    (dirtied : codept ∈ packed.dirtiedCodepts) :
    tables.decidesRight codept = true := by
  have shaped : tables.arabicShaperRange codept = true := (generated.range_iff codept).mpr dirtied
  have scratch := generated.scratch_of_range shaped
  have wide := isZeroWidth_scratch scratch
  rw [mem_scratchCodepoints] at scratch
  have neutral : isNeutral codept = false := by
    simp [isNeutral, inRange, wide]
    omega
  have weak : isWeakLtr codept = false := by
    simp [isWeakLtr, inRange]
    omega
  simp [decidesRight, opinionated, neutral, weak, ShaperTables.isRtl, shaped]

theorem GeneratedTables.decidesRight_letter (letters : forms.RtlLetters tables)
    {pair : CharacterForms × ShaperLUTEntry} (member : pair ∈ pairs) {c : Char}
    (inKey : c ∈ pair.1.1) : tables.decidesRight c.toNat = true := by
  obtain ⟨rtl, notNeutral, notWeak⟩ := letters _ (generated.item_mem member) c inKey
  simp [decidesRight, opinionated, rtl, notNeutral, notWeak]

/-- A codepoint with a record decides for the right. -/
theorem GeneratedTables.decidesRight_entry (letters : forms.RtlLetters tables) {codept : Nat}
    {entry : ShaperLUTEntry} (found : tables.findLutEntryByCodept codept = some entry) :
    tables.decidesRight codept = true := by
  obtain ⟨pair, member, rfl, rfl⟩ := generated.exists_pair_of_find found
  rcases generated.key_cases member with ⟨c, key, -, eq⟩ | ⟨a, b, -, -, -, ligature⟩
  · rw [eq]
    exact generated.decidesRight_letter letters member (by simp [key])
  · apply generated.decidesRight_dirtied
    apply generated.done.allocated.dirtied.mem_iff.mpr
    exact List.mem_append_right _ (List.mem_map_of_mem ligature)

theorem GeneratedTables.decidesRight_form {codept : Nat} {entry : ShaperLUTEntry}
    (found : tables.findLutEntryByCodept codept = some entry) (form : LetterForm) :
    tables.decidesRight (runeValue (entry.formChar form)) = true := by
  have twoByte := generated.sound.form_two_byte _ _ found
  have bounds := twoByte form
  have value := twoByte.formChar_toNat form
  rw [runeValue_of_lt (by omega)]
  obtain ⟨pair, member, rfl, -⟩ := generated.exists_pair_of_find found
  obtain ⟨glyph, selected, -, lookup, eq⟩ := (generated.done.forms pair member).formCodept_eq form
  obtain rfl : selected = (pair.2.formChar form).toNat := by omega
  exact generated.decidesRight_dirtied (generated.done.allocated.lookup_dirtied lookup)

/-- A character that decides for the right if it is rewritten. -/
theorem GeneratedTables.firstOpinion_shapedChar {codept : Nat} {c : Char}
    (rewritten : ∀ entry, tables.findLutEntryByCodept codept = some entry →
      tables.decidesRight (runeValue c) = true) (joined : Bool) (follows : List Char)
    {rest rest' : List Char}
    (same : tables.firstOpinion alignment rest = tables.firstOpinion alignment rest') :
    tables.firstOpinion alignment (tables.shapedChar joined codept c follows :: rest) =
      tables.firstOpinion alignment (c :: rest') := by
  unfold shapedChar
  split
  · exact firstOpinion_congr same
  · split
    next entry found =>
      rw [firstOpinion_of_decidesRight (generated.decidesRight_form found _),
        firstOpinion_of_decidesRight (rewritten entry found)]
    next => exact firstOpinion_congr same

theorem GeneratedTables.decidesRight_ligature (letters : forms.RtlLetters tables)
    {first second : Nat} (ligates : tables.ligature first second ≠ 0) :
    tables.decidesRight first = true ∧ tables.decidesRight second = true := by
  obtain ⟨pair, member, a, b, key, rfl, rfl, -⟩ := generated.exists_pair_of_ligature ligates
  exact ⟨generated.decidesRight_letter letters member (by simp [key]),
    generated.decidesRight_letter letters member (by simp [key])⟩

/-- Shaping from a character on, which decides for the right if it may be rewritten. -/
theorem GeneratedTables.firstOpinion_shapeFrom (letters : forms.RtlLetters tables) {codept : Nat}
    {c : Char} {rest : List Char}
    (rewritten : ∀ entry, tables.findLutEntryByCodept codept = some entry →
      tables.decidesRight (runeValue c) = true)
    (ligated : ∀ second, tables.ligature codept second ≠ 0 →
      tables.decidesRight (runeValue c) = true) (joined : Bool) :
    tables.firstOpinion alignment (tables.shapeFrom joined codept c rest) =
      tables.firstOpinion alignment (c :: rest) := by
  induction rest generalizing codept c joined with
  | nil => exact generated.firstOpinion_shapedChar rewritten joined [] rfl
  | cons d rest ih =>
      rw [shapeFrom]
      split
      next ligates =>
        have rightSecond := (generated.decidesRight_ligature letters ligates).2
        have neutralPlaceholder : opinionated (runeValue placeholder) = false := by decide
        rw [firstOpinion, neutralPlaceholder, if_neg (by simp), ih (fun _ _ => rightSecond)
            (fun _ _ => rightSecond), firstOpinion_of_decidesRight rightSecond,
          firstOpinion_of_decidesRight (ligated _ ligates)]
      next =>
        apply generated.firstOpinion_shapedChar rewritten
        apply ih
        · exact fun entry found => generated.decidesRight_entry letters found
        · exact fun second ligates => (generated.decidesRight_ligature letters ligates).1

theorem GeneratedTables.firstOpinion_shapeChars (letters : forms.RtlLetters tables)
    (chars : List Char) :
    tables.firstOpinion alignment (tables.shapeChars chars) =
      tables.firstOpinion alignment chars := by
  cases chars with
  | nil => rfl
  | cons c rest =>
      apply generated.firstOpinion_shapeFrom letters
      · exact fun entry found => generated.decidesRight_entry letters found
      · exact fun second ligates => (generated.decidesRight_ligature letters ligates).1

end Opinions

/-- For tables generated from right-to-left letters and ligatures of them,
`gdt_alignment_step` decides for a text of the basic plane as for the shaped text. -/
theorem gdtAlignmentStep_shapeText {unicodedataName : Char → Option String} {forms : FormsTable}
    {tables : ShaperTables} (run : generateTables unicodedataName forms.items = .ok tables)
    (letters : forms.RtlLetters tables) {m : Memory} {text : Int} {chars : List Char}
    (stands : TextAt m text chars) (plane : ∀ c ∈ chars, c ≠ '\x00' ∧ c.toNat < 0x10000)
    (alignment : GTextAlignment) :
    ∃ after decided, shapeText tables m text = .ok after ∧
      gdtAlignmentStep tables m text alignment = .ok decided ∧
      gdtAlignmentStep tables after text alignment = .ok decided := by
  obtain ⟨packed, pairs, generated⟩ := exists_generatedTables run
  obtain ⟨after, shape, standsAfter, -⟩ :=
    shapeText_spec generated.sound (generated.shapable plane) stands
  have shapedPlane := generated.shapeChars_plane plane
  refine ⟨after, _, shape, gdtAlignmentStep_eq stands fun c member => (plane c member).1, ?_⟩
  rw [gdtAlignmentStep_eq standsAfter fun c member => (shapedPlane c member).1,
    generated.firstOpinion_shapeChars letters]

/-- A number and punctuation in front of a ligature. -/
theorem gdtAlignmentStep_shapeText_ligature :
    ∃ after decided, shapeText lamAlefTables
        (.ofBytes 0 (encode ['1', '.', ' ', 'ل', 'ا', 'a'] ++ [0])) 0 = .ok after ∧
      gdtAlignmentStep lamAlefTables (.ofBytes 0 (encode ['1', '.', ' ', 'ل', 'ا', 'a'] ++ [0])) 0
        .left = .ok decided ∧
      gdtAlignmentStep lamAlefTables after 0 .left = .ok decided :=
  gdtAlignmentStep_shapeText generateTables_lamAlefForms (by decide)
    (textAt_ofBytes 0 ['1', '.', ' ', 'ل', 'ا', 'a']) (by decide) .left

end Elbbep
