import Elbbep.ShapePass

/-!
# Unshaping as a function on characters

`unshapeText` replaces recycled codepoints by what they stand for; the letters
of a ligature go over the ligature's own rune and over the rune before it,
which is trusted to be a placeholder.  This file reads the pass as a function
on characters, for texts in which every expanded ligature has such a rune
before it.
-/

namespace Elbbep

open ByteMemory Utf8Encoding

namespace ShaperTables

variable (tables : ShaperTables)

/-- The codepoints written for a rune, the last of them over the rune itself. -/
def unshapedCodepts (codept : Nat) : List Nat :=
  if !tables.arabicShaperRange codept then []
  else if tables.findBaseCodeptByShaped codept = 0 then []
  else
    (tables.ligatureLetters (tables.findBaseCodeptByShaped codept)).getD
      [tables.findBaseCodeptByShaped codept]

/-- Text outside the recycled codepoints is left alone. -/
theorem unshapedCodepts_outside {codept : Nat}
    (outside : tables.arabicShaperRange codept = false) :
    tables.unshapedCodepts codept = [] := by
  simp [unshapedCodepts, outside]

theorem unshapeRune_eq (m : Memory) (iterPre : Int) (codept : Nat) :
    unshapeRune tables m iterPre codept =
      writeRunes m (iterPre - runeSize * ((tables.unshapedCodepts codept).length - 1))
        (tables.unshapedCodepts codept) := by
  unfold unshapeRune unshapedCodepts expandLigature
  split
  · rfl
  · by_cases zero : tables.findBaseCodeptByShaped codept = 0
    · simp [zero, writeRunes]
    · cases pattern : tables.ligatureLetters (tables.findBaseCodeptByShaped codept) with
      | none => simp [zero, pattern, writeRunes]
      | some letters => simp [zero, pattern]

/-- One rune of the unshaping pass, behind the text `done`. -/
def unshapeStep (done : List Char) (c : Char) : List Char :=
  (done ++ [c]).rdrop (tables.unshapedCodepts (runeValue c)).length ++
    (tables.unshapedCodepts (runeValue c)).map Char.ofNat

/-- Unshaping a text. -/
def unshapeChars (chars : List Char) : List Char :=
  chars.foldl tables.unshapeStep []

/-- Every rune that is expanded to two follows a 2-byte rune. -/
def ExpansionsFit : (previousSize : Nat) → List Char → Prop
  | _, [] => True
  | previousSize, c :: rest =>
      ((tables.unshapedCodepts (runeValue c)).length = 2 → previousSize = 2) ∧
        ExpansionsFit c.utf8Size rest

instance decidableExpansionsFit :
    (previousSize : Nat) → (chars : List Char) → Decidable (tables.ExpansionsFit previousSize chars)
  | _, [] => .isTrue trivial
  | previousSize, c :: rest =>
      have := decidableExpansionsFit c.utf8Size rest
      inferInstanceAs (Decidable
        (((tables.unshapedCodepts (runeValue c)).length = 2 → previousSize = 2) ∧
          tables.ExpansionsFit c.utf8Size rest))

/-- What the unshaping pass relies on in its tables. -/
structure Restores : Prop where
  length_le : ∀ codept, (tables.unshapedCodepts codept).length ≤ 2
  two_byte : ∀ codept, ∀ base ∈ tables.unshapedCodepts codept, 0x80 ≤ base ∧ base < 0x800

/-- A text that the pass reads as characters: only 2-byte runes are rewritten. -/
structure Restorable (chars : List Char) : Prop where
  nonzero : ∀ c ∈ chars, c ≠ '\x00'
  two_byte : ∀ c ∈ chars, tables.unshapedCodepts (runeValue c) ≠ [] → c.utf8Size = 2

theorem Restorable.tail {tables : ShaperTables} {c : Char} {rest : List Char}
    (restorable : tables.Restorable (c :: rest)) : tables.Restorable rest :=
  ⟨fun d member => restorable.nonzero d (by simp [member]),
    fun d member => restorable.two_byte d (by simp [member])⟩

end ShaperTables

/-- The size of the last rune of a text. -/
def lastSize (chars : List Char) : Nat :=
  (chars.getLast?.map Char.utf8Size).getD 0

@[simp] theorem lastSize_concat (chars : List Char) (c : Char) :
    lastSize (chars ++ [c]) = c.utf8Size := by
  simp [lastSize]

theorem ofNat_size {codept : Nat} (lower : 0x80 ≤ codept) (upper : codept < 0x800) :
    (Char.ofNat codept).utf8Size = 2 := by
  rw [utf8Size_eq_two_iff, toNat_ofNat_of_lt upper]
  exact ⟨lower, upper⟩

section Pass

variable {tables : ShaperTables} {m : Memory} {text : Int} {done front rest : List Char}
  {p c : Char}

/-- Overwriting a 2-byte rune by a 2-byte codepoint. -/
theorem TextAt.writeCodept (stands : TextAt m text (front ++ c :: rest)) (size : c.utf8Size = 2)
    {codept : Nat} (bounds : 0x80 ≤ codept ∧ codept < 0x800) :
    TextAt (writeUtf8 m (text + byteLength front) codept) text
      (front ++ Char.ofNat codept :: rest) ∧
      RuneWrites text ((front ++ c :: rest).map Char.utf8Size) m
        (writeUtf8 m (text + byteLength front) codept) := by
  have written := stands.write size (ofNat_size bounds.1 bounds.2)
  rw [toNat_ofNat_of_lt bounds.2] at written
  exact ⟨written, .write m codept (runeStart_of_append text front rest size)⟩

/-- Overwriting two 2-byte runes by the letters of a ligature. -/
theorem TextAt.writePair (stands : TextAt m text (front ++ p :: c :: rest))
    (size : p.utf8Size = 2) (nextSize : c.utf8Size = 2) {first second : Nat}
    (firstBounds : 0x80 ≤ first ∧ first < 0x800) (secondBounds : 0x80 ≤ second ∧ second < 0x800) :
    TextAt (writeRunes m (text + byteLength front) [first, second]) text
        (front ++ Char.ofNat first :: Char.ofNat second :: rest) ∧
      RuneWrites text ((front ++ p :: c :: rest).map Char.utf8Size) m
        (writeRunes m (text + byteLength front) [first, second]) := by
  have firstSize := ofNat_size firstBounds.1 firstBounds.2
  have forward : text + (byteLength front : Int) + runeSize =
      text + (byteLength (front ++ [Char.ofNat first]) : Int) := by
    simp [firstSize, runeSize, Int.add_assoc]
  obtain ⟨one, oneWrites⟩ := stands.writeCodept size firstBounds
  rw [List.append_cons front] at one
  obtain ⟨two, twoWrites⟩ := one.writeCodept nextSize secondBounds
  rw [writeRunes, writeRunes, writeRunes, forward]
  refine ⟨by simpa using two, oneWrites.trans ?_⟩
  simpa [firstSize, size] using twoWrites

/-- One rune of the pass over memory. -/
theorem unshapeRune_step (restores : tables.Restores)
    (size : tables.unshapedCodepts (runeValue c) ≠ [] → c.utf8Size = 2)
    (fits : (tables.unshapedCodepts (runeValue c)).length = 2 → lastSize done = 2)
    (stands : TextAt m text (done ++ c :: rest)) :
    TextAt (unshapeRune tables m (text + byteLength done) (runeValue c)) text
        (tables.unshapeStep done c ++ rest) ∧
      RuneWrites text ((done ++ c :: rest).map Char.utf8Size) m
        (unshapeRune tables m (text + byteLength done) (runeValue c)) := by
  have short := restores.length_le (runeValue c)
  have bounds := restores.two_byte (runeValue c)
  rw [tables.unshapeRune_eq, ShaperTables.unshapeStep]
  generalize tables.unshapedCodepts (runeValue c) = codepts at *
  match codepts with
  | [] => exact ⟨by simpa [writeRunes] using stands, .refl m⟩
  | [base] =>
      obtain ⟨written, writes⟩ := stands.writeCodept (size (by simp)) (bounds base (by simp))
      exact ⟨by simpa [writeRunes, List.rdrop] using written, by simpa [writeRunes] using writes⟩
  | [first, second] =>
      -- The rune before is a 2-byte rune, over which the first letter goes.
      rcases List.eq_nil_or_concat' done with rfl | ⟨front, p, rfl⟩
      · simp [lastSize] at fits
      · have before : p.utf8Size = 2 := by simpa using fits rfl
        have standsPair : TextAt m text (front ++ p :: c :: rest) := by simpa using stands
        have back : text + (byteLength (front ++ [p]) : Int) -
            runeSize * (([first, second].length : Int) - 1) = text + byteLength front := by
          simp [before, runeSize]
          omega
        obtain ⟨written, writes⟩ := standsPair.writePair before (size (by simp))
          (bounds first (by simp)) (bounds second (by simp))
        rw [back]
        exact ⟨by simpa [List.rdrop] using written, by simpa using writes⟩

/-- A rune that is rewritten in place keeps the boundaries of the text. -/
theorem unshapeStep_sizes (restores : tables.Restores)
    (size : tables.unshapedCodepts (runeValue c) ≠ [] → c.utf8Size = 2)
    (fits : (tables.unshapedCodepts (runeValue c)).length = 2 → lastSize done = 2) :
    (tables.unshapeStep done c).map Char.utf8Size = (done ++ [c]).map Char.utf8Size := by
  have short := restores.length_le (runeValue c)
  have bounds := restores.two_byte (runeValue c)
  rw [ShaperTables.unshapeStep]
  generalize tables.unshapedCodepts (runeValue c) = codepts at *
  match codepts with
  | [] => simp
  | [base] =>
      have baseBounds := bounds base (by simp)
      simp [List.rdrop, ofNat_size baseBounds.1 baseBounds.2, size]
  | [first, second] =>
      have firstBounds := bounds first (by simp)
      have secondBounds := bounds second (by simp)
      rcases List.eq_nil_or_concat' done with rfl | ⟨front, p, rfl⟩
      · simp [lastSize] at fits
      · have before : p.utf8Size = 2 := by simpa using fits rfl
        simp [List.rdrop, ofNat_size firstBounds.1 firstBounds.2,
          ofNat_size secondBounds.1 secondBounds.2, before, size]

theorem lastSize_unshapeStep (restores : tables.Restores)
    (size : tables.unshapedCodepts (runeValue c) ≠ [] → c.utf8Size = 2)
    (fits : (tables.unshapedCodepts (runeValue c)).length = 2 → lastSize done = 2) :
    lastSize (tables.unshapeStep done c) = c.utf8Size := by
  rw [lastSize, ← List.getLast?_map, unshapeStep_sizes restores size fits, List.map_append]
  simp

/-- The loop of `unshape_text`, from any rune on. -/
theorem unshapeLoop_eq (restores : tables.Restores) (restorable : tables.Restorable rest)
    (fits : tables.ExpansionsFit (lastSize done) rest) (stands : TextAt m text (done ++ rest))
    {fuel : Nat} (enough : rest.length + 1 ≤ fuel) :
    ∃ after, unshapeLoop tables fuel m (text + byteLength done) = .ok after ∧
      TextAt after text (rest.foldl tables.unshapeStep done) ∧
      (rest.foldl tables.unshapeStep done).map Char.utf8Size =
        (done ++ rest).map Char.utf8Size ∧
      RuneWrites text ((done ++ rest).map Char.utf8Size) m after := by
  induction rest generalizing m done fuel with
  | nil =>
      obtain ⟨fuel, rfl⟩ : ∃ less, fuel = less + 1 := ⟨fuel - 1, by simp at enough; omega⟩
      simp only [List.append_nil] at stands ⊢
      refine ⟨m, ?_, stands, rfl, .refl m⟩
      rw [unshapeLoop, stands.load_terminator]
      rfl
  | cons c rest ih =>
      obtain ⟨fuel, rfl⟩ : ∃ less, fuel = less + 1 := ⟨fuel - 1, by simp at enough; omega⟩
      obtain ⟨byte, load, byteNe⟩ := stands.load_lead (restorable.nonzero c (by simp))
      have size := restorable.two_byte c (by simp)
      obtain ⟨written, writes⟩ := unshapeRune_step restores size fits.1 stands
      have sizes := unshapeStep_sizes restores size fits.1
      have lengthEq : byteLength (tables.unshapeStep done c) = byteLength (done ++ [c]) := by
        rw [byteLength_eq_sum, sizes, ← byteLength_eq_sum]
      have last := lastSize_unshapeStep restores size fits.1
      obtain ⟨after, run, standsAfter, sizesAfter, moreWrites⟩ := ih restorable.tail
        (last ▸ fits.2) written (show rest.length + 1 ≤ fuel by simpa using enough)
      rw [lengthEq] at run
      refine ⟨after, ?_, standsAfter, ?_, writes.trans ?_⟩
      · rw [unshapeLoop, load]
        simp only [bind, Except.bind, byteNe, ne_eq, not_false_eq_true, if_true,
          stands.readUtf8_eq]
        exact run
      · rw [List.foldl_cons, sizesAfter, List.map_append, sizes]
        simp
      · rw [List.map_append, sizes] at moreWrites
        simpa using moreWrites

/-- `unshape_text` unshapes every text whose expansions fit. -/
theorem unshapeText_spec (restores : tables.Restores) {chars : List Char}
    (restorable : tables.Restorable chars) (fits : tables.ExpansionsFit 0 chars)
    (stands : TextAt m text chars) :
    ∃ after, unshapeText tables m text = .ok after ∧
      TextAt after text (tables.unshapeChars chars) ∧
      (tables.unshapeChars chars).map Char.utf8Size = chars.map Char.utf8Size ∧
      RuneWrites text (chars.map Char.utf8Size) m after := by
  have short := length_le_byteLength chars
  have high := stands.high_gt
  have placed : TextAt m text ([] ++ chars) := stands
  have fitsStart : tables.ExpansionsFit (lastSize []) chars := fits
  obtain ⟨after, run, spec⟩ := unshapeLoop_eq restores restorable fitsStart placed
    (show chars.length + 1 ≤ (m.high - text).toNat + 1 by omega)
  exact ⟨after, by simpa [unshapeText] using run, spec⟩

end Pass

/-! ## Generated tables -/

/-- The tables that a generator run wrote for a forms table. -/
structure GeneratedTables (forms : FormsTable) (packed : PackState)
    (pairs : List (CharacterForms × ShaperLUTEntry)) (tables : ShaperTables) : Prop
    extends RuntimeTables forms packed pairs tables where
  range_iff : ∀ cp, tables.arabicShaperRange cp = true ↔ cp ∈ packed.dirtiedCodepts

theorem exists_generatedTables {unicodedataName : Char → Option String} {forms : FormsTable}
    {tables : ShaperTables} (run : generateTables unicodedataName forms.items = .ok tables) :
    ∃ packed pairs, GeneratedTables forms packed pairs tables := by
  obtain ⟨packed, pairs, -, runtime, range⟩ := generateTables_ok run
  exact ⟨packed, pairs, runtime, range⟩

theorem hasForm_iff {entry : ShaperLUTEntry} {codept : Nat} :
    (entry.isolatedCodept == codept ||
      (entry.isolatedCodept : Int) + entry.initialCodeptDelta == codept ||
      (entry.isolatedCodept : Int) + entry.medialCodeptDelta == codept ||
      (entry.isolatedCodept : Int) + entry.finalCodeptDelta == codept) = true ↔
      ∃ form, entry.formCodept form = codept := by
  simp only [Bool.or_eq_true, beq_iff_eq]
  constructor
  · rintro (((eq | eq) | eq) | eq)
    · exact ⟨.isolated, by simp [ShaperLUTEntry.formCodept, ShaperLUTEntry.delta, eq]⟩
    · exact ⟨.initial, eq⟩
    · exact ⟨.medial, eq⟩
    · exact ⟨.final, eq⟩
  · rintro ⟨form, eq⟩
    cases form <;> simp [ShaperLUTEntry.formCodept, ShaperLUTEntry.delta] at eq <;> simp [eq]

/-- The search for a base codepoint stops at an entry with such a form, if there is one. -/
theorem findBaseCodeptByShaped_cases {tables : ShaperTables}
    {pairs : List (CharacterForms × ShaperLUTEntry)} (entries : tables.entries = pairs.map Prod.snd)
    (codept : Nat) :
    (tables.findBaseCodeptByShaped codept = 0 ∧
        ∀ pair ∈ pairs, ∀ form, pair.2.formCodept form ≠ codept) ∨
      ∃ pair ∈ pairs, (∃ form, pair.2.formCodept form = codept) ∧
        tables.findBaseCodeptByShaped codept = pair.2.trueCodept := by
  unfold ShaperTables.findBaseCodeptByShaped
  rw [entries]
  split
  next entry found =>
    have matched := List.find?_some found
    obtain ⟨pair, member, rfl⟩ := List.mem_map.mp (List.mem_of_find?_eq_some found)
    exact Or.inr ⟨pair, member, hasForm_iff.mp matched, rfl⟩
  next found =>
    refine Or.inl ⟨rfl, fun pair member form same => ?_⟩
    exact List.find?_eq_none.mp found pair.2 (List.mem_map_of_mem member)
      (hasForm_iff.mpr ⟨form, same⟩)

namespace GeneratedTables

variable {forms : FormsTable} {packed : PackState}
  {pairs : List (CharacterForms × ShaperLUTEntry)} {tables : ShaperTables}
  (generated : GeneratedTables forms packed pairs tables)

include generated

theorem scratch_of_range {cp : Nat} (inRange : tables.arabicShaperRange cp = true) :
    cp ∈ scratchCodepoints :=
  generated.done.allocated.dirtied_scratch ((generated.range_iff cp).mp inRange)

theorem unshapedCodepts_placeholder : tables.unshapedCodepts (runeValue placeholder) = [] := by
  apply tables.unshapedCodepts_outside
  by_contra inside
  have scratch := generated.scratch_of_range (by simpa using inside)
  rw [mem_scratchCodepoints] at scratch
  revert scratch
  decide

/-- A ligature's codepoint leads back to its letters, and no other true codepoint does. -/
theorem ligatureLetters_pair {pair : CharacterForms × ShaperLUTEntry} (member : pair ∈ pairs) :
    (tables.ligatureLetters pair.2.trueCodept).getD [pair.2.trueCodept] =
      pair.1.1.map Char.toNat := by
  rw [ShaperTables.ligatureLetters, generated.ligatureWords_eq,
    ligaturePattern_records _ fun record inLigatures => generated.unmarked inLigatures]
  have key_of {record : LigatureRecord} (inLigatures : record ∈ ligaturesOf pairs)
      (same : record.replacement == pair.2.trueCodept) :
      ∃ a b, pair.1.1 = [a, b] ∧ record = ⟨a.toNat, b.toNat, pair.2.trueCodept⟩ := by
    obtain ⟨other, otherMem, a, b, key, rfl⟩ := mem_ligaturesOf inLigatures
    obtain rfl := generated.pair_eq_of_trueCodept otherMem member (by simpa using same)
    exact ⟨a, b, key, rfl⟩
  rcases generated.key_cases member with ⟨c, key, -, codeptEq⟩ | ⟨a, b, key, -, -, inLigatures⟩
  · have missing : ((ligaturesOf pairs).find? fun record =>
        record.replacement == pair.2.trueCodept) = none := by
      rw [List.find?_eq_none]
      intro record inRecords same
      obtain ⟨a, b, other, -⟩ := key_of inRecords same
      simp [key] at other
    rw [missing]
    simp [key, codeptEq]
  · have found : ((ligaturesOf pairs).find? fun record =>
        record.replacement == pair.2.trueCodept) =
          some ⟨a.toNat, b.toNat, pair.2.trueCodept⟩ := by
      apply find?_eq_some_of_unique inLigatures (by simp)
      intro record inRecords same
      obtain ⟨a', b', other, rfl⟩ := key_of inRecords same
      rw [key, List.cons.injEq, List.cons.injEq] at other
      rw [other.1, other.2.1]
    rw [found]
    simp [key]

/-- A rune that is rewritten at all is rewritten to a key with such a form. -/
theorem unshapedCodepts_cases (codept : Nat) :
    tables.unshapedCodepts codept = [] ∨
      codept ∈ scratchCodepoints ∧
        ∃ pair ∈ pairs, (∃ form, pair.2.formCodept form = codept) ∧
          tables.unshapedCodepts codept = pair.1.1.map Char.toNat := by
  unfold ShaperTables.unshapedCodepts
  by_cases outside : tables.arabicShaperRange codept = false
  · simp [outside]
  · have inside : tables.arabicShaperRange codept = true := by simpa using outside
    simp only [inside, Bool.not_true, Bool.false_eq_true, if_false]
    by_cases zero : tables.findBaseCodeptByShaped codept = 0
    · simp [zero]
    · right
      refine ⟨generated.scratch_of_range inside, ?_⟩
      rcases findBaseCodeptByShaped_cases generated.entries_eq codept with
        none | ⟨pair, member, form, baseEq⟩
      · exact absurd none.1 zero
      · refine ⟨pair, member, form, ?_⟩
        rw [if_neg zero, baseEq]
        exact generated.ligatureLetters_pair member

theorem restores : tables.Restores := by
  have of_key (codept : Nat) :
      tables.unshapedCodepts codept = [] ∨ ∃ pair ∈ pairs,
        tables.unshapedCodepts codept = pair.1.1.map Char.toNat := by
    rcases generated.unshapedCodepts_cases codept with none | ⟨-, pair, member, -, eq⟩
    · exact Or.inl none
    · exact Or.inr ⟨pair, member, eq⟩
  refine ⟨fun codept => ?_, fun codept base inCodepts => ?_⟩
  · rcases of_key codept with none | ⟨pair, member, eq⟩
    · simp [none]
    · rw [eq, List.length_map]
      have := forms.key_length _ (generated.item_mem member)
      omega
  · rcases of_key codept with none | ⟨pair, member, eq⟩
    · simp [none] at inCodepts
    · rw [eq] at inCodepts
      obtain ⟨c, inKey, rfl⟩ := List.mem_map.mp inCodepts
      have letter := forms.letters _ (generated.item_mem member) c inKey
      exact ⟨letter.lower, letter.upper⟩

/-- Texts of the basic plane are read as characters. -/
theorem restorable {chars : List Char} (plane : ∀ c ∈ chars, c ≠ '\x00' ∧ c.toNat < 0x10000) :
    tables.Restorable chars := by
  refine ⟨fun c member => (plane c member).1, fun c member rewritten => ?_⟩
  rcases generated.unshapedCodepts_cases (runeValue c) with none | ⟨scratch, -⟩
  · exact absurd none rewritten
  · rw [runeValue_of_lt (plane c member).2, mem_scratchCodepoints] at scratch
    rw [utf8Size_eq_two_iff]
    omega

/-- Shaping does not leave the basic plane. -/
theorem shapeChars_plane {chars : List Char}
    (plane : ∀ c ∈ chars, c ≠ '\x00' ∧ c.toNat < 0x10000) :
    ∀ c ∈ tables.shapeChars chars, c ≠ '\x00' ∧ c.toNat < 0x10000 := by
  intro c member
  rcases mem_shapeChars generated.sound member with original | two
  · exact plane c original
  · rw [utf8Size_eq_two_iff] at two
    refine ⟨?_, by omega⟩
    rintro rfl
    exact absurd two.1 (by decide)

end GeneratedTables

end Elbbep
