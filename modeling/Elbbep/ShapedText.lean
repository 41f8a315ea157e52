import Elbbep.TextShaper
import Elbbep.TextInMemory

/-!
# Shaping as a function on characters

`shapeText` commits to a form as soon as it sees the next rune and corrects
it later.  Read as a function on the characters of a text, it decides every
letter by what joins it on the left and by what follows behind zero-width
runes.  This file defines that function.
-/

namespace Elbbep

open ByteMemory Utf8Encoding

namespace ShaperTables

variable (tables : ShaperTables)

/-- The ligature of two codepoints in the window, or zero. -/
def ligature (first second : Nat) : Nat :=
  tables.findLigatureByCodepts (codeptBuffer first second) 2

/-- A codepoint and the next rune make a ligature. -/
def ligates (codept : Nat) : List Char → Bool
  | [] => false
  | d :: _ => tables.ligature codept (runeValue d) ≠ 0

/-- Whether a word that is open before these runes goes on behind its marks. -/
def wordGoesOn : List Char → Bool
  | [] => false
  | c :: rest =>
      tables.ligates (runeValue c) rest ||
        if isZeroWidth (runeValue c) then wordGoesOn rest
        else (tables.findLutEntryByCodept (runeValue c)).isSome

/-- What comes behind a letter. -/
inductive Following
  | letter
  | breakNow
  | breakAfterMarks
  deriving DecidableEq, Repr

def following : List Char → Following
  | [] => .breakNow
  | c :: rest =>
      if (tables.findLutEntryByCodept (runeValue c)).isNone && !isZeroWidth (runeValue c) then
        .breakNow
      else if tables.wordGoesOn (c :: rest) then .letter
      else .breakAfterMarks

end ShaperTables

open ShaperTables

/-- The form a letter ends up with.  Behind marks the word is closed by its final
form even when nothing joins the letter from the left. -/
def ShaperLUTEntry.formIn (entry : ShaperLUTEntry) (joined : Bool) (follows : Following) :
    LetterForm :=
  if entry.hasNoMedialForm then
    if joined then .final else .isolated
  else
    match follows with
    | .letter => if joined then .medial else .initial
    | .breakNow => if joined then .final else .isolated
    | .breakAfterMarks => .final

def ShaperLUTEntry.formChar (entry : ShaperLUTEntry) (form : LetterForm) : Char :=
  Char.ofNat (entry.formCodept form).toNat

/-- The forms of an entry are 2-byte codepoints. -/
def ShaperLUTEntry.TwoByteForms (entry : ShaperLUTEntry) : Prop :=
  ∀ form, 0x80 ≤ entry.formCodept form ∧ entry.formCodept form < 0x800

/-- The placeholder left for the first letter of a ligature. -/
def placeholder : Char :=
  Char.ofNat zeroWidthCodept

namespace ShaperTables

variable (tables : ShaperTables)

/-- The character that replaces `c`, read as `codept`. -/
def shapedChar (joined : Bool) (codept : Nat) (c : Char) (rest : List Char) : Char :=
  if isZeroWidth codept then c
  else
    match tables.findLutEntryByCodept codept with
    | some entry => entry.formChar (entry.formIn joined (tables.following rest))
    | none => c

/-- Whether the next letter is joined to this codepoint. -/
def joinsNext (joined : Bool) (codept : Nat) (rest : List Char) : Bool :=
  if isZeroWidth codept then joined
  else
    match tables.findLutEntryByCodept codept with
    | some entry => tables.following rest ≠ .breakNow && !entry.hasNoMedialForm
    | none => false

/-- Shaping from a character on, which stands for `codept`: its own, or that of
the ligature it completes. -/
def shapeFrom (joined : Bool) (codept : Nat) (c : Char) : List Char → List Char
  | [] => [tables.shapedChar joined codept c []]
  | d :: rest =>
      if tables.ligature codept (runeValue d) ≠ 0 then
        placeholder :: shapeFrom joined (tables.ligature codept (runeValue d)) d rest
      else
        tables.shapedChar joined codept c (d :: rest) ::
          shapeFrom (tables.joinsNext joined codept (d :: rest)) (runeValue d) d rest

/-- Shaping a text. -/
def shapeChars : List Char → List Char
  | [] => []
  | c :: rest => tables.shapeFrom false (runeValue c) c rest

/-- `wordGoesOn` for a rune that stands for `codept`. -/
def letterAhead (codept : Nat) (rest : List Char) : Bool :=
  tables.ligates codept rest ||
    if isZeroWidth codept then tables.wordGoesOn rest
    else (tables.findLutEntryByCodept codept).isSome

theorem wordGoesOn_cons (c : Char) (rest : List Char) :
    tables.wordGoesOn (c :: rest) = tables.letterAhead (runeValue c) rest := rfl

theorem following_cons_eq_breakNow (c : Char) (rest : List Char) :
    tables.following (c :: rest) = .breakNow ↔
      tables.findLutEntryByCodept (runeValue c) = none ∧ isZeroWidth (runeValue c) = false := by
  rw [following]
  by_cases ends : ((tables.findLutEntryByCodept (runeValue c)).isNone &&
      !isZeroWidth (runeValue c)) = true
  · rw [if_pos ends]
    simpa using ends
  · rw [if_neg ends]
    cases tables.wordGoesOn (c :: rest) <;> simpa using ends

/-- One rune of lookahead tells whether the word ends here. -/
theorem breakNow_eq_decide (c : Char) (rest : List Char) :
    ((tables.findLutEntryByCodept (runeValue c)).isNone && !isZeroWidth (runeValue c)) =
      decide (tables.following (c :: rest) = .breakNow) := by
  rw [Bool.eq_iff_iff, decide_eq_true_iff, following_cons_eq_breakNow]
  simp

theorem wordGoesOn_of_following (rest : List Char) :
    (tables.following rest = .letter → tables.wordGoesOn rest = true) ∧
      (tables.following rest = .breakAfterMarks → tables.wordGoesOn rest = false) := by
  cases rest with
  | nil => simp [following]
  | cons c rest =>
      rw [following]
      by_cases ends : ((tables.findLutEntryByCodept (runeValue c)).isNone &&
          !isZeroWidth (runeValue c)) = true
      · simp [ends]
      · cases tables.wordGoesOn (c :: rest) <;> simp [ends]

/-- What the pass over memory relies on in its tables. -/
structure Sound : Prop where
  form_two_byte : ∀ codept entry, tables.findLutEntryByCodept codept = some entry →
    entry.TwoByteForms
  ligature_zero : ∀ second, tables.ligature 0 second = 0
  ligature_entry : ∀ first second, tables.ligature first second ≠ 0 →
    (tables.findLutEntryByCodept (tables.ligature first second)).isSome ∧
      isZeroWidth (tables.ligature first second) = false

/-- A text that the pass over memory reads as characters: no rune is taken for
the terminator, and what it may rewrite is two bytes long. -/
structure Shapable (chars : List Char) : Prop where
  nonzero : ∀ c ∈ chars, runeValue c ≠ 0
  two_byte : ∀ c ∈ chars, (tables.findLutEntryByCodept (runeValue c)).isSome → c.utf8Size = 2
  ligature_first : ∀ c ∈ chars, ∀ second, tables.ligature (runeValue c) second ≠ 0 →
    c.utf8Size = 2
  ligature_second : ∀ c ∈ chars, ∀ first, tables.ligature first (runeValue c) ≠ 0 →
    c.utf8Size = 2

theorem Shapable.tail {tables : ShaperTables} {c : Char} {rest : List Char}
    (shapable : tables.Shapable (c :: rest)) : tables.Shapable rest :=
  ⟨fun d member => shapable.nonzero d (by simp [member]),
    fun d member => shapable.two_byte d (by simp [member]),
    fun d member => shapable.ligature_first d (by simp [member]),
    fun d member => shapable.ligature_second d (by simp [member])⟩

end ShaperTables

/-! ## Forms as characters -/

theorem toNat_ofNat_of_lt {codept : Nat} (small : codept < 0x800) :
    (Char.ofNat codept).toNat = codept := by
  have valid : codept.isValidChar := Or.inl (by omega)
  simp [Char.ofNat, valid, Char.toNat, Char.ofNatAux]

theorem placeholder_toNat : placeholder.toNat = zeroWidthCodept :=
  toNat_ofNat_of_lt (by rw [zeroWidthCodept_eq]; decide)

theorem placeholder_size : placeholder.utf8Size = 2 := by
  rw [utf8Size_eq_two_iff, placeholder_toNat, zeroWidthCodept_eq]
  decide

namespace ShaperLUTEntry.TwoByteForms

variable {entry : ShaperLUTEntry} (twoByte : entry.TwoByteForms)

include twoByte

theorem formChar_toNat (form : LetterForm) :
    (entry.formChar form).toNat = (entry.formCodept form).toNat := by
  have bounds := twoByte form
  exact toNat_ofNat_of_lt (by omega)

theorem formChar_size (form : LetterForm) : (entry.formChar form).utf8Size = 2 := by
  have bounds := twoByte form
  rw [utf8Size_eq_two_iff, twoByte.formChar_toNat]
  omega

theorem writeForm_eq (m : Memory) (ptr : Int) (form : LetterForm) :
    writeForm m ptr entry form = writeUtf8 m ptr (entry.formChar form).toNat := by
  have bounds := twoByte form
  rw [writeForm, twoByte.formChar_toNat, Int.emod_eq_of_lt (by omega) (by omega)]

end ShaperLUTEntry.TwoByteForms

end Elbbep
