import Elbbep.GeneratedTables

/-!
# The text shaper

`shapeText` and `unshapeText` embed `runtime/text_shaper.c`.  The shaper makes
one pass with a window of two codepoints, writes each letter's form in place,
and keeps a pointer to the last joined letter, which it corrects when the word
turns out to have ended behind zero-width runes.  The unshaper maps every
recycled codepoint back, expanding ligatures backwards over their placeholder.
Both run until a zero byte at what they take for the start of a rune.
-/

namespace Elbbep

open ByteMemory

inductive ShaperState
  | initial
  | medial
  deriving DecidableEq, Repr

/-- The locals of `shape_text`.  `late_finalize_lut_entry` is only read while
`late_finalize_ptr` is set, so the two are kept together. -/
structure ShapeLocals where
  state : ShaperState
  ptr : Int
  nextCodeptPtr : Int
  thisCodeptPtr : Int
  /-- `codept_buffer[THIS_CODEPT]` and `codept_buffer[NEXT_CODEPT]`. -/
  thisCodept : Nat
  nextCodept : Nat
  thisLutEntry : Option ShaperLUTEntry
  nextLutEntry : Option ShaperLUTEntry
  lateFinalize : Option (Int × ShaperLUTEntry)
  ligatureSpan : Nat

/-- The locals before the first turn.  `next_codept_ptr` is not initialized in
the source and not used before it is set. -/
def ShapeLocals.start (text : Int) : ShapeLocals where
  state := .initial
  ptr := text
  nextCodeptPtr := 0
  thisCodeptPtr := 0
  thisCodept := 0
  nextCodept := 0
  thisLutEntry := none
  nextLutEntry := none
  lateFinalize := none
  ligatureSpan := 0

/-- `codept_buffer` as an array in memory.  The search also compares the element
behind the array, but discards the comparison. -/
def codeptBuffer (thisCodept nextCodept : Nat) : Nat → Nat
  | 0 => thisCodept
  | 1 => nextCodept
  | _ => 0

/-- Identical medial and final forms mark a letter without medial form; stuff
like kashida, with no deltas at all, is exempt. -/
def ShaperLUTEntry.hasNoMedialForm (entry : ShaperLUTEntry) : Bool :=
  entry.medialCodeptDelta == entry.finalCodeptDelta && entry.finalCodeptDelta != 0

/-- `write_utf8` of a form, whose sum is converted to `uint16_t`. -/
def writeForm (m : Memory) (ptr : Int) (entry : ShaperLUTEntry) (form : LetterForm) : Memory :=
  writeUtf8 m ptr (entry.formCodept form % 2 ^ 16).toNat

/-- "Close any existing word", the correction behind zero-width runes. -/
def closeWord (m : Memory) (state : ShaperState) :
    (lateFinalize : Option (Int × ShaperLUTEntry)) → Memory
  | some (ptr, entry) =>
      match state with
      | .initial => writeForm m ptr entry .isolated
      | .medial => writeForm m ptr entry .final
  | none => m

namespace ShapeLocals

/-- The window moved over the rune `codept` at `ptr`, which may complete a
ligature.  "This only works with 2-char ligatures." -/
def readRune (tables : ShaperTables) (locals : ShapeLocals) (codept : Nat) (ptr : Int) :
    ShapeLocals :=
  let ligCodept := tables.findLigatureByCodepts (codeptBuffer locals.nextCodept codept) 2
  let nextCodept := if ligCodept ≠ 0 then ligCodept else codept
  { locals with
    ptr := ptr
    thisCodept := locals.nextCodept
    thisCodeptPtr := locals.nextCodeptPtr
    thisLutEntry := locals.nextLutEntry
    nextCodept := nextCodept
    nextCodeptPtr := locals.ptr
    nextLutEntry := tables.findLutEntryByCodept nextCodept
    ligatureSpan := if ligCodept ≠ 0 then 1 else locals.ligatureSpan }

/-- The window moved over the terminator, where `ptr` stays. -/
def readTerminator (locals : ShapeLocals) : ShapeLocals :=
  { locals with
    thisCodept := locals.nextCodept
    thisCodeptPtr := locals.nextCodeptPtr
    thisLutEntry := locals.nextLutEntry
    nextCodept := 0
    nextCodeptPtr := 0
    nextLutEntry := none }

/-- "Read forward one." -/
def readForward (tables : ShaperTables) (m : Memory) (locals : ShapeLocals) :
    Except Fault ShapeLocals := do
  let byte ← m.load locals.ptr
  if byte ≠ 0 then
    let (codept, ptr) ← readUtf8 m locals.ptr
    .ok (locals.readRune tables codept ptr)
  else
    .ok locals.readTerminator

/-- The rest of the loop body, which acts on the current rune. -/
def shapeThis (m : Memory) (locals : ShapeLocals) : Memory × ShapeLocals :=
  if locals.ligatureSpan ≠ 0 then
    (writeUtf8 m locals.thisCodeptPtr zeroWidthCodept,
      { locals with ligatureSpan := locals.ligatureSpan - 1 })
  else if isZeroWidth locals.thisCodept then
    (m, locals)
  else
    match locals.thisLutEntry with
    | some entry =>
        if (locals.nextLutEntry.isNone && !isZeroWidth locals.nextCodept) ||
            entry.hasNoMedialForm then
          -- Final, or isolated form.
          (match locals.state with
            | .initial => writeForm m locals.thisCodeptPtr entry .isolated
            | .medial => writeForm m locals.thisCodeptPtr entry .final,
            { locals with lateFinalize := none, state := .initial })
        else
          match locals.state with
          | .initial =>
              (writeForm m locals.thisCodeptPtr entry .initial,
                { locals with
                  lateFinalize := some (locals.thisCodeptPtr, entry)
                  state := .medial })
          | .medial =>
              (writeForm m locals.thisCodeptPtr entry .medial,
                { locals with lateFinalize := some (locals.thisCodeptPtr, entry) })
    | none =>
        -- Not a shapable character: reset the state.
        (closeWord m locals.state locals.lateFinalize,
          { locals with lateFinalize := none, state := .initial })

end ShapeLocals

/-- The `do`-`while` loop of `shape_text`. -/
def shapeLoop (tables : ShaperTables) : (fuel : Nat) → Memory → ShapeLocals → Except Fault Memory
  | 0, _, _ => .error .outOfFuel
  | fuel + 1, m, locals => do
      let read ← locals.readForward tables m
      let (m, shaped) := read.shapeThis m
      if shaped.thisCodept ≠ 0 ∨ shaped.nextCodept ≠ 0 then
        shapeLoop tables fuel m shaped
      else
        .ok m

/-- `shape_text`.  A turn either consumes a byte of the readable window or is
one of the two last ones. -/
def shapeText (tables : ShaperTables) (m : Memory) (text : Int) : Except Fault Memory :=
  shapeLoop tables ((m.high - text).toNat + 2) m (.start text)

/-- What `unshape_text` does to one rune. -/
def unshapeRune (tables : ShaperTables) (m : Memory) (iterPre : Int) (codept : Nat) : Memory :=
  if !tables.arabicShaperRange codept then m
  else
    let oldCodept := tables.findBaseCodeptByShaped codept
    if oldCodept ≠ 0 then
      let (expanded, expansion) := tables.expandLigature m oldCodept iterPre
      if expanded then expansion else writeUtf8 m iterPre oldCodept
    else m

/-- The loop of `unshape_text`. -/
def unshapeLoop (tables : ShaperTables) : (fuel : Nat) → Memory → Int → Except Fault Memory
  | 0, _, _ => .error .outOfFuel
  | fuel + 1, m, iter => do
      let byte ← m.load iter
      if byte ≠ 0 then
        let (codept, next) ← readUtf8 m iter
        unshapeLoop tables fuel (unshapeRune tables m iter codept) next
      else
        .ok m

/-- `unshape_text`. -/
def unshapeText (tables : ShaperTables) (m : Memory) (iter : Int) : Except Fault Memory :=
  unshapeLoop tables ((m.high - iter).toNat + 1) m iter

end Elbbep
