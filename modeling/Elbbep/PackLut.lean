import Elbbep.ShaperTables

/-!
# Generating the shaper tables

This file embeds the table generator of `fonts/text_shaper.py`: `pack_lut`
assigns a recycled codepoint to every glyph of a forms table and packs the
letter and ligature records, `contiguous_ranges` groups the recycled codepoints
into intervals, and `write_lut` hands all of it to the runtime.  The Unicode
name database is a parameter; names only end up in the glyph labels.
-/

namespace Elbbep

open PythonStruct

/-- `scratch_codepoint_ranges`. -/
def scratchCodepointRanges : List (Nat × Nat) :=
  [(0x700, 0x750), (0x780, 0x7FF + 1)]

/-- `chain(*(range(*p) for p in scratch_codepoint_ranges))`. -/
def scratchCodepoints : List Nat :=
  scratchCodepointRanges.flatMap fun p => List.range' p.1 (p.2 - p.1)

/-- A key of the forms table with the glyphs of its four forms. -/
abbrev CharacterForms : Type := List Char × List Nat

/-- The locals of `pack_lut`, dictionaries in insertion order. -/
structure PackState where
  availableCodepts : List Nat
  selectedGlyphs : List (Nat × Nat)
  dirtiedCodepts : List Nat
  labels : List (Nat × String)
  lutData : List UInt8
  ligData : List UInt8
  deriving DecidableEq, Repr

namespace PackState

def start : PackState :=
  ⟨scratchCodepoints, [], [], [], [], []⟩

/-- `next(available_codepts)`, whose result is always recorded as dirtied. -/
def nextCodept (state : PackState) : Except PyError (Nat × PackState) :=
  match state.availableCodepts with
  | [] => .error .stopIteration
  | codept :: rest =>
      .ok (codept,
        { state with
          availableCodepts := rest
          dirtiedCodepts := state.dirtiedCodepts ++ [codept] })

/-- The codepoint of a glyph, assigned at its first use. -/
def selectGlyph (state : PackState) (labelBase : String) (idx glyph : Nat) :
    Except PyError (Nat × PackState) :=
  match state.selectedGlyphs.lookup glyph with
  | some codept => .ok (codept, state)
  | none => do
      let (codept, state) ← state.nextCodept
      match ["ISO", "INI", "MED", "FIN"][idx]? with
      | none => .error .indexError
      | some form =>
          .ok (codept,
            { state with
              selectedGlyphs := state.selectedGlyphs ++ [(glyph, codept)]
              labels := state.labels ++ [(codept, labelBase ++ "-" ++ form)] })

/-- The loop over `ch_forms`; a zero or absent base codepoint is falsy. -/
def packForms (labelBase : String) : (idx : Nat) → (baseTransformedCodept : Option Nat) →
    (lineParts : List Int) → (chForms : List Nat) → PackState →
      Except PyError (List Int × PackState)
  | _, _, lineParts, [], state => .ok (lineParts, state)
  | idx, baseTransformedCodept, lineParts, glyph :: chForms, state => do
      let (codept, state) ← state.selectGlyph labelBase idx glyph
      if baseTransformedCodept.getD 0 = 0 then
        packForms labelBase (idx + 1) (some codept) (lineParts ++ [(codept : Int)]) chForms state
      else
        packForms labelBase (idx + 1) baseTransformedCodept
          (lineParts ++ [(codept : Int) - baseTransformedCodept.getD 0]) chForms state

end PackState

/-- `struct.pack("<HHbbb", *line_parts)`. -/
def packLine : List Int → Except PyError (List UInt8)
  | [trueCodept, isolated, initial, medial, final] => do
      let b0 ← packH trueCodept
      let b1 ← packH isolated
      let b2 ← packSignedB initial
      let b3 ← packSignedB medial
      let b4 ← packSignedB final
      .ok (b0 ++ b1 ++ b2 ++ b3 ++ b4)
  | _ => .error .structError

/-- `for c in ch: lig_data += struct.pack("<H", ord(c))`. -/
def packLetters : List Char → Except PyError (List UInt8)
  | [] => .ok []
  | c :: cs => do
      let bytes ← packH c.toNat
      let rest ← packLetters cs
      .ok (bytes ++ rest)

namespace PackState

/-- The true codepoint of a key and the base of its labels.  A ligature is
assigned a codepoint of its own and extends the ligature table. -/
def trueCodept (unicodedataName : Char → Option String) (ch : List Char) (state : PackState) :
    Except PyError (Nat × String × PackState) :=
  match ch with
  | [c] =>
      match unicodedataName c with
      | some name => .ok (c.toNat, name, state)
      | none => .error .valueError
  | _ =>
      if ch.length ≤ 2 then do
        let (codept, state) ← state.nextCodept
        let letters ← packLetters ch
        let replacement ← packH (markedCodept codept)
        .ok (codept, "LIG-" ++ String.ofList ch,
          { state with ligData := state.ligData ++ letters ++ replacement })
      else .error .assertionError

/-- The body of the loop over the sorted keys. -/
def packCharacter (unicodedataName : Char → Option String) (item : CharacterForms)
    (state : PackState) : Except PyError PackState := do
  let (codept, labelBase, state) ← state.trueCodept unicodedataName item.1
  let (lineParts, state) ← state.packForms labelBase 0 none [(codept : Int)] item.2
  let line ← packLine lineParts
  .ok { state with lutData := state.lutData ++ line }

def packCharacters (unicodedataName : Char → Option String) :
    List CharacterForms → PackState → Except PyError PackState
  | [], state => .ok state
  | item :: items, state => do
      let state ← state.packCharacter unicodedataName item
      packCharacters unicodedataName items state

end PackState

/-- The items of a forms dictionary in the order of `sorted(list(forms.keys()))`. -/
def sortedForms (forms : List CharacterForms) : List CharacterForms :=
  forms.insertionSort fun first second => first.1 ≤ second.1

/-- `pack_lut`. -/
def packLut (unicodedataName : Char → Option String) (forms : List CharacterForms) :
    Except PyError PackState :=
  PackState.start.packCharacters unicodedataName (sortedForms forms)

/-- The loop of `contiguous_ranges` over the sorted values. -/
def contiguousRangesFrom : (runRange : List Nat) → (lastVal : Option Nat) → List Nat →
    Except PyError (List (Nat × Nat))
  | runRange, _, [] =>
      match runRange.head?, runRange.getLast? with
      | some first, some last => .ok [(first, last)]
      | _, _ => .error .indexError
  | runRange, lastVal, val :: vals =>
      if lastVal.isSome ∧ lastVal.getD 0 + 1 ≠ val then
        match runRange.head?, runRange.getLast? with
        | some first, some last => do
            let rest ← contiguousRangesFrom [val] (some val) vals
            .ok ((first, last) :: rest)
        | _, _ => .error .indexError
      else
        contiguousRangesFrom (runRange ++ [val]) (some val) vals

/-- `contiguous_ranges`. -/
def contiguousRanges (vals : List Nat) : Except PyError (List (Nat × Nat)) :=
  contiguousRangesFrom [] none (vals.insertionSort (· ≤ ·))

/-- `write_lut`. -/
def writeLut (lutData ligData : List UInt8) (shapableRanges : List (Nat × Nat)) : ShaperTables :=
  ⟨lutData, ligData, shapableRanges.map fun r => (r.1, r.2 + 1)⟩

/-- The tables that a run of `fonts/text_shaper.py` writes for a forms table. -/
def generateTables (unicodedataName : Char → Option String) (forms : List CharacterForms) :
    Except PyError ShaperTables := do
  let packed ← packLut unicodedataName forms
  let shapableRanges ← contiguousRanges packed.dirtiedCodepts
  .ok (writeLut packed.lutData packed.ligData shapableRanges)

/-- `selected_glyphs[glyph] = codept` on a dictionary in insertion order. -/
def insertGlyph (selectedGlyphs : List (Nat × Nat)) (glyph codept : Nat) : List (Nat × Nat) :=
  if (selectedGlyphs.lookup glyph).isSome then
    selectedGlyphs.map fun item => if item.1 = glyph then (glyph, codept) else item
  else selectedGlyphs ++ [(glyph, codept)]

/-- `supplemental_alphabet`: Arabic-Indic digits and punctuation. -/
def supplementalAlphabet : List Char :=
  "١٢٣٤٥٦٧٨٩٠؟؛،".toList

/-- `supplement_selected_glyphs`, over the glyph that `hb-shape` reports for a
character on its own. -/
def supplementSelectedGlyphs (shapeAlone : Char → Nat) (selectedGlyphs : List (Nat × Nat))
    (alphabet : List Char) : List (Nat × Nat) :=
  alphabet.foldl (fun selected ch => insertGlyph selected (shapeAlone ch) ch.toNat) selectedGlyphs

/-- `{v: k for k, v in selected_glyphs.items()}`, looked up at a codepoint: a
later item replaces an earlier one. -/
def selectedCodepts (selectedGlyphs : List (Nat × Nat)) (codept : Nat) : Option Nat :=
  (selectedGlyphs.reverse.find? fun item => item.2 == codept).map Prod.fst

end Elbbep
