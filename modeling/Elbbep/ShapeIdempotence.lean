import Elbbep.UnshapedText

/-!
# Shaping shaped text

Platforms that do not restore the text shape the same buffer again and again.  In a
shaped text no rune has a record: every letter has been rewritten to a glyph
codepoint, and those are neither letters nor codepoints of ligatures.  Such a text is
not changed by another pass.
-/

namespace Elbbep

open ByteMemory Utf8Encoding ShaperTables

/-! ## Texts without records -/

section NoRecords

variable {tables : ShaperTables}

/-- No rune of the text has a record, and no two neighbours make a ligature. -/
structure Settled (tables : ShaperTables) (chars : List Char) : Prop where
  no_entry : ∀ c ∈ chars, tables.findLutEntryByCodept (runeValue c) = none
  no_ligature : ∀ a b, [a, b] <:+: chars → tables.ligature (runeValue a) (runeValue b) = 0

theorem Settled.tail {c : Char} {rest : List Char} (settled : Settled tables (c :: rest)) :
    Settled tables rest where
  no_entry d member := settled.no_entry d (List.mem_cons_of_mem c member)
  no_ligature a b neighbours := settled.no_ligature a b (List.infix_cons neighbours)

theorem shapedChar_of_no_entry {codept : Nat} (none : tables.findLutEntryByCodept codept = none)
    (joined : Bool) (c : Char) (rest : List Char) : tables.shapedChar joined codept c rest = c := by
  rw [shapedChar, none]
  exact ite_self c

theorem shapeFrom_of_settled {c : Char} {rest : List Char} (settled : Settled tables (c :: rest))
    (joined : Bool) : tables.shapeFrom joined (runeValue c) c rest = c :: rest := by
  induction rest generalizing c joined with
  | nil => rw [shapeFrom, shapedChar_of_no_entry (settled.no_entry c (by simp))]
  | cons d rest ih =>
      have apart : tables.ligature (runeValue c) (runeValue d) = 0 :=
        settled.no_ligature c d ⟨[], rest, rfl⟩
      rw [shapeFrom, if_neg (by simp [apart]),
        shapedChar_of_no_entry (settled.no_entry c (by simp)), ih settled.tail]

/-- A settled text is not changed. -/
theorem shapeChars_of_settled {chars : List Char} (settled : Settled tables chars) :
    tables.shapeChars chars = chars := by
  cases chars with
  | nil => rfl
  | cons c rest => exact shapeFrom_of_settled settled false

end NoRecords

/-! ## Shaped texts have no records -/

section Generated

variable {forms : FormsTable} {packed : PackState}
  {pairs : List (CharacterForms × ShaperLUTEntry)} {tables : ShaperTables}
  (runtime : RuntimeTables forms packed pairs tables)

include runtime

/-- Glyph codepoints have no records: they are no letters, and no ligature has one. -/
theorem RuntimeTables.form_no_entry {pair : CharacterForms × ShaperLUTEntry}
    (member : pair ∈ pairs) (form : LetterForm) {codept : Nat}
    (eq : pair.2.formCodept form = codept) : tables.findLutEntryByCodept codept = none := by
  by_contra found
  obtain ⟨entry, found⟩ := Option.ne_none_iff_exists'.mp found
  obtain ⟨other, otherMem, rfl, trueEq⟩ := runtime.exists_pair_of_find found
  obtain ⟨glyph, value, -, lookup, valueEq⟩ := (runtime.done.forms pair member).formCodept_eq form
  obtain rfl : value = codept := by
    rw [valueEq] at eq
    exact_mod_cast eq
  have scratch := runtime.done.allocated.dirtied_scratch
    (runtime.done.allocated.lookup_dirtied lookup)
  rcases runtime.key_cases otherMem with ⟨c, -, letter, letterEq⟩ | ⟨a, b, -, -, -, ligature⟩
  · rw [← trueEq, letterEq] at scratch
    exact letter.not_scratch scratch
  · have selected : value ∈ packed.selectedGlyphs.map Prod.snd :=
      List.mem_map_of_mem (PackState.mem_of_lookup lookup)
    have reserved : value ∈ (ligaturesOf pairs).map LigatureRecord.replacement := by
      rw [← trueEq]
      exact List.mem_map_of_mem ligature
    exact (List.nodup_append.mp runtime.codepts_nodup).2.2 value selected value reserved rfl

/-- Codepoints of zero width have no records. -/
theorem RuntimeTables.zeroWidth_no_entry (noZeroWidth : forms.NoZeroWidth) {codept : Nat}
    (zeroWidth : isZeroWidth codept = true) : tables.findLutEntryByCodept codept = none := by
  by_contra found
  obtain ⟨entry, found⟩ := Option.ne_none_iff_exists'.mp found
  obtain ⟨pair, member, rfl, rfl⟩ := runtime.exists_pair_of_find found
  rcases runtime.key_cases member with ⟨c, key, -, letterEq⟩ | ⟨a, b, -, -, -, ligature⟩
  · rw [letterEq, noZeroWidth _ (runtime.item_mem member) c (by simp [key])] at zeroWidth
    cases zeroWidth
  · rw [isZeroWidth_scratch (runtime.replacement_scratch ligature)] at zeroWidth
    cases zeroWidth

theorem RuntimeTables.formChar_no_entry {codept : Nat} {entry : ShaperLUTEntry}
    (found : tables.findLutEntryByCodept codept = some entry) (form : LetterForm) :
    tables.findLutEntryByCodept (runeValue (entry.formChar form)) = none := by
  obtain ⟨pair, member, rfl, -⟩ := runtime.exists_pair_of_find found
  have twoByte := runtime.sound.form_two_byte _ _ found
  have bounds := twoByte form
  have value := twoByte.formChar_toNat form
  rw [runeValue_of_lt (by omega)]
  exact runtime.form_no_entry member form (by omega)

theorem RuntimeTables.placeholder_no_entry (noZeroWidth : forms.NoZeroWidth) :
    tables.findLutEntryByCodept (runeValue placeholder) = none :=
  runtime.zeroWidth_no_entry noZeroWidth (by decide)

/-- A rune that the pass leaves alone has no record. -/
theorem RuntimeTables.shapedChar_no_entry {codept : Nat} {c : Char}
    (left : isZeroWidth codept = true ∨ tables.findLutEntryByCodept codept = none →
      tables.findLutEntryByCodept (runeValue c) = none) (joined : Bool) (rest : List Char) :
    tables.findLutEntryByCodept (runeValue (tables.shapedChar joined codept c rest)) = none := by
  unfold shapedChar
  split
  next zeroWidth => exact left (Or.inl zeroWidth)
  next =>
    split
    next entry found => exact runtime.formChar_no_entry found _
    next none => exact left (Or.inr none)

theorem RuntimeTables.shapeFrom_no_entry (noZeroWidth : forms.NoZeroWidth) {codept : Nat} {c : Char}
    {rest : List Char}
    (left : isZeroWidth codept = true ∨ tables.findLutEntryByCodept codept = none →
      tables.findLutEntryByCodept (runeValue c) = none) (joined : Bool) :
    ∀ d ∈ tables.shapeFrom joined codept c rest,
      tables.findLutEntryByCodept (runeValue d) = none := by
  have own (d : Char) : isZeroWidth (runeValue d) = true ∨
      tables.findLutEntryByCodept (runeValue d) = none →
        tables.findLutEntryByCodept (runeValue d) = none := by
    rintro (zeroWidth | none)
    · exact runtime.zeroWidth_no_entry noZeroWidth zeroWidth
    · exact none
  induction rest generalizing codept c joined with
  | nil =>
      intro d member
      rw [shapeFrom, List.mem_singleton] at member
      rw [member]
      exact runtime.shapedChar_no_entry left joined []
  | cons e rest ih =>
      intro d member
      rw [shapeFrom] at member
      split at member
      next ligates =>
        obtain ⟨entry, wide⟩ := runtime.sound.ligature_entry _ _ ligates
        rcases List.mem_cons.mp member with rfl | later
        · exact runtime.placeholder_no_entry noZeroWidth
        · -- The second letter stands for the ligature, which has a record.
          refine ih (fun alone => ?_) joined d later
          rcases alone with zeroWidth | none
          · rw [wide] at zeroWidth
            cases zeroWidth
          · rw [none] at entry
            cases entry
      next =>
        rcases List.mem_cons.mp member with rfl | later
        · exact runtime.shapedChar_no_entry left joined _
        · exact ih (own e) _ d later

/-- A shaped text is settled. -/
theorem RuntimeTables.settled_shapeChars (noZeroWidth : forms.NoZeroWidth)
    (ligaturesOfLetters : forms.LigaturesOfLetters) (chars : List Char) :
    Settled tables (tables.shapeChars chars) := by
  have noEntry : ∀ c ∈ tables.shapeChars chars,
      tables.findLutEntryByCodept (runeValue c) = none := by
    cases chars with
    | nil => simp [shapeChars]
    | cons c rest =>
        apply runtime.shapeFrom_no_entry noZeroWidth
        rintro (zeroWidth | none)
        · exact runtime.zeroWidth_no_entry noZeroWidth zeroWidth
        · exact none
  refine ⟨noEntry, fun a b neighbours => ?_⟩
  by_contra ligates
  have entry := (runtime.ligature_entries ligaturesOfLetters ligates).1
  rw [noEntry a (neighbours.subset (by simp))] at entry
  cases entry

end Generated

/-! ## Shaping again and again -/

/-- Shaping a text a number of times. -/
def shapeTimes (tables : ShaperTables) (text : Int) : (times : Nat) → Memory → Except Fault Memory
  | 0, m => .ok m
  | times + 1, m => do
      let m ← shapeText tables m text
      shapeTimes tables text times m

theorem shapeTimes_settled {tables : ShaperTables} (sound : tables.Sound) {m : Memory} {text : Int}
    {chars : List Char} (stands : TextAt m text chars) (shapable : tables.Shapable chars)
    (settled : Settled tables chars) (times : Nat) :
    ∃ again, shapeTimes tables text times m = .ok again ∧ again.byte = m.byte := by
  induction times generalizing m with
  | zero => exact ⟨m, rfl, rfl⟩
  | succ times ih =>
      obtain ⟨after, shape, standsAfter, writes⟩ := shapeText_spec sound shapable stands
      rw [shapeChars_of_settled settled] at standsAfter
      obtain ⟨again, run, same⟩ := ih standsAfter
      refine ⟨again, ?_, same.trans (standsAfter.byte_eq stands writes.withinText)⟩
      rw [shapeTimes, shape]
      exact run

/-- For tables generated from letters of nonzero width and ligatures of them, shaping a text
of the basic plane leaves runes without records and without ligatures among neighbours, and
shaping it any further number of times changes no byte of the memory. -/
theorem shapeText_idempotent {unicodedataName : Char → Option String} {forms : FormsTable}
    {tables : ShaperTables} (run : generateTables unicodedataName forms.items = .ok tables)
    (noZeroWidth : forms.NoZeroWidth) (ligaturesOfLetters : forms.LigaturesOfLetters)
    {m : Memory} {text : Int} {chars : List Char} (stands : TextAt m text chars)
    (plane : ∀ c ∈ chars, c ≠ '\x00' ∧ c.toNat < 0x10000) :
    ∃ after shaped, shapeText tables m text = .ok after ∧ TextAt after text shaped ∧
      (∀ c ∈ shaped, c ≠ '\x00') ∧
      (∀ c ∈ shaped, tables.findLutEntryByCodept c.toNat = none) ∧
      (∀ a b, [a, b] <:+: shaped →
        tables.findLigatureByCodepts (codeptBuffer a.toNat b.toNat) 2 = 0) ∧
      ∀ times, ∃ again, shapeTimes tables text times after = .ok again ∧
        again.byte = after.byte := by
  obtain ⟨packed, pairs, generated⟩ := exists_generatedTables run
  obtain ⟨after, shape, standsAfter, -⟩ :=
    shapeText_spec generated.sound (generated.shapable plane) stands
  have shapedPlane := generated.shapeChars_plane plane
  have settled := generated.settled_shapeChars noZeroWidth ligaturesOfLetters chars
  have value {c : Char} (member : c ∈ tables.shapeChars chars) : runeValue c = c.toNat :=
    runeValue_of_lt (shapedPlane c member).2
  refine ⟨after, _, shape, standsAfter, fun c member => (shapedPlane c member).1, ?_, ?_, ?_⟩
  · intro c member
    rw [← value member]
    exact settled.no_entry c member
  · intro a b neighbours
    rw [← value (neighbours.subset (by simp)), ← value (neighbours.subset (by simp))]
    exact settled.no_ligature a b neighbours
  · exact shapeTimes_settled generated.sound standsAfter (generated.shapable shapedPlane) settled

/-- A word with a ligature behind a mark, and a codepoint of a recycled block. -/
theorem shapeText_idempotent_word :
    ∃ after shaped, shapeText lamAlefTables
        (.ofBytes 0 (encode ['ل', 'ِ', 'ل', 'ا', '܇', 'a'] ++ [0])) 0 = .ok after ∧
      TextAt after 0 shaped ∧ (∀ c ∈ shaped, c ≠ '\x00') ∧
      (∀ c ∈ shaped, lamAlefTables.findLutEntryByCodept c.toNat = none) ∧
      (∀ a b, [a, b] <:+: shaped →
        lamAlefTables.findLigatureByCodepts (codeptBuffer a.toNat b.toNat) 2 = 0) ∧
      ∀ times, ∃ again, shapeTimes lamAlefTables 0 times after = .ok again ∧
        again.byte = after.byte :=
  shapeText_idempotent generateTables_lamAlefForms (by decide) (by decide)
    (textAt_ofBytes 0 ['ل', 'ِ', 'ل', 'ا', '܇', 'a']) (by decide)

end Elbbep
