import Elbbep.FailingPrograms
import Elbbep.Folders
import Elbbep.FontGen
import Elbbep.ThickenedMarks

/-!
# Dumped and collected bitmaps

For some members `compose.py` lets `fontgen.py` dump the glyphs, lets `fix_ijam.py` thicken their
dots, and lets `fontgen.py` collect the thickened glyphs in the place of the rendered ones.  The
directories of the bitmaps stay from run to run.
-/

namespace Elbbep

open PythonStruct FailingPrograms
open PfoMerge (DictOrder)

namespace FontGen

/-- What a file of a bitmap says: a glyph with pixels. -/
structure Bitmap extends RenderedGlyph where
  width_pos : 0 < width
  height_pos : 0 < height

/-- The name of such a file: the glyph index, and a label if there is one. -/
structure BitmapName where
  gindex : Nat
  label : Option (List Char)
  deriving DecidableEq, Repr

abbrev BitmapFolder := Folder BitmapName Bitmap

/-- A directory with collected bitmaps, and the one below it with the dumps. -/
structure BitmapDir where
  dump : BitmapFolder
  collect : BitmapFolder

def BitmapDir.empty : BitmapDir :=
  ⟨[], []⟩

/-- The glyph as a bitmap, if it has pixels. -/
def RenderedGlyph.bitmap (glyph : RenderedGlyph) : Option Bitmap :=
  if inked : 0 < glyph.width ∧ 0 < glyph.height then some ⟨glyph, inked.1, inked.2⟩ else none

/-- The name of a dump.  The labels of the codepoints go before their names. -/
def bitmapName (unicodedataName : Nat → Option (List Char)) (codeptLabels : List (Nat × String))
    (codepoint gindex : Nat) : BitmapName :=
  ⟨gindex, ((codeptLabels.lookup codepoint).map String.toList).or (unicodedataName codepoint)⟩

/-- The glyph that is packed: the collected one, if a glyph with pixels has been collected. -/
def BitmapDir.collected (dir : BitmapDir) (name : BitmapName) (glyph : RenderedGlyph) :
    RenderedGlyph :=
  match glyph.bitmap with
  | none => glyph
  | some _ => ((dir.collect.lookup name).map Bitmap.toRenderedGlyph).getD glyph

/-- `glyph_bits` writes a glyph with pixels into the directory for dumps. -/
def dumpGlyph (render : Nat → Nat → RenderedGlyph) (name : Nat → Nat → BitmapName)
    (dump : BitmapFolder) (codepoint : Nat) : GIndex → BitmapFolder
  | .zeroWidth => dump
  | .face gindex => (render codepoint gindex).bitmap.elim dump fun bitmap =>
      dump.write (name codepoint gindex) bitmap

namespace Font

variable (font : Font) (name : Nat → Nat → BitmapName)

/-- The font with the collected glyphs. -/
def collecting (dir : BitmapDir) : Font :=
  { font with
    render := fun codepoint gindex =>
      dir.collected (name codepoint gindex) (font.render codepoint gindex) }

/-- What `build_tables` has dumped when it is through, or when a glyph cannot be packed.  That
glyph is dumped before. -/
def dumpGlyphs (drawn : Font) : (added : List GIndex) → (sources : List (Nat × GIndex)) →
    BitmapFolder → BitmapFolder
  | _, [], dump => dump
  | added, (codepoint, gindex) :: sources, dump =>
      if gindex ∈ added then dumpGlyphs drawn added sources dump
      else
        match drawn.glyphBits codepoint gindex with
        | .error _ => dumpGlyph font.render name dump codepoint gindex
        | .ok _ => dumpGlyphs drawn (gindex :: added) sources
            (dumpGlyph font.render name dump codepoint gindex)

/-- `fontgen.py pfo` with `--dump-bitmaps` and `--collect-bitmaps`. -/
def fontgen (sources : List (Nat × GIndex)) : EStateM PyError BitmapDir (List UInt8) := do
  let drawn := font.collecting name (← get)
  modify fun dir => { dir with dump := font.dumpGlyphs name drawn [] sources dir.dump }
  liftExcept (drawn.bitstring sources)

end Font

end FontGen

namespace FixIjam

open FontGen (Bitmap BitmapName BitmapDir)

/-! ## Files -/

/-- The file of a bitmap. -/
def dumpOf (bitmap : Bitmap) : GlyphDump where
  width := bitmap.width
  height := bitmap.height
  left := bitmap.left
  bottom := bitmap.bottom
  advance := bitmap.advance
  text := (List.range bitmap.height).flatMap fun i =>
    ((bitmap.glyphBitmap.drop (i * bitmap.width)).take bitmap.width).map
      (fun bit => if bit then '#' else ' ') ++ ['\n']

/-- The bitmap that `fontgen.py` reads from a file. -/
def readDump (dump : GlyphDump) (sized : dump.Sized) (inked : 0 < dump.width ∧ 0 < dump.height) :
    Bitmap where
  width := dump.width.toNat
  height := dump.height.toNat
  left := dump.left
  bottom := dump.bottom
  advance := dump.advance
  glyphBitmap := dump.bmpStr.map fun c => c == '#'
  bitmap_length := by
    rw [List.length_map, ← Int.toNat_mul inked.1.le inked.2.le, ← sized, Int.toNat_natCast]
  width_pos := by omega
  height_pos := by omega

/-- What is written can be read, and has pixels. -/
theorem processGlyph_written {keyOrder : DictOrder Point} {dump written : GlyphDump}
    (inked : 0 < dump.width ∧ 0 < dump.height)
    (run : processGlyph keyOrder dump = .ok (some written)) :
    written.Sized ∧ 0 < written.width ∧ 0 < written.height := by
  have rebuilt : ∃ recentred, written =
      rebuild keyOrder dump (findPoints dump).otherPoints recentred := by
    simp only [processGlyph] at run
    split at run
    · cases run
    · split at run
      · cases run
      · obtain ⟨grown, -, run⟩ := bind_ok run
        obtain ⟨recentred, -, run⟩ := bind_ok run
        exact ⟨recentred, (Option.some.inj (Except.ok.inj run)).symm⟩
  obtain ⟨recentred, rfl⟩ := rebuilt
  have nonneg := expand_nonneg keyOrder dump.width dump.height recentred.ijam
  refine ⟨(rebuild_wellFormed _ _ _ _ inked.1.le inked.2.le).sized, ?_, ?_⟩
  · simp only [rebuild]
    omega
  · simp only [rebuild]
    omega

/-- `process_glyph` on the file of a bitmap. -/
def thicken (keyOrder : DictOrder Point) (bitmap : Bitmap) : Except PyError (Option Bitmap) :=
  match run : processGlyph keyOrder (dumpOf bitmap) with
  | .error e => .error e
  | .ok none => .ok none
  | .ok (some written) =>
      have fine := processGlyph_written
        ⟨Int.natCast_pos.mpr bitmap.width_pos, Int.natCast_pos.mpr bitmap.height_pos⟩ run
      .ok (some (readDump written fine.1 fine.2))

/-- A dump is read as it was written. -/
theorem dumpOf_wellFormed (bitmap : Bitmap) : (dumpOf bitmap).WellFormed := by
  refine ⟨(List.range bitmap.height).map fun i =>
    ((bitmap.glyphBitmap.drop (i * bitmap.width)).take bitmap.width).map
      (fun bit => if bit then '#' else ' '), by simp [dumpOf], ?_, ?_⟩
  · intro row member
    obtain ⟨i, inRange, rfl⟩ := List.mem_map.mp member
    have before : i + 1 ≤ bitmap.height := List.mem_range.mp inRange
    have room := Nat.mul_le_mul_right bitmap.width before
    rw [Nat.succ_mul, Nat.mul_comm bitmap.height, ← bitmap.bitmap_length] at room
    refine ⟨?_, fun pixel inRow => ?_⟩
    · rw [List.length_map, List.length_take, List.length_drop]
      simp only [dumpOf]
      omega
    · obtain ⟨bit, -, rfl⟩ := List.mem_map.mp inRow
      cases bit <;> simp
  · rw [List.flatMap_map]
    rfl

/-! ## The script -/

/-- The pattern `*ARABIC*`, to which only the label of a name contributes. -/
def isArabic (name : BitmapName) : Bool :=
  name.label.any fun label => decide ("ARABIC".toList <:+: label)

def processFile (keyOrder : DictOrder Point) (file : BitmapName × Bitmap) :
    EStateM PyError BitmapDir Unit :=
  match thicken keyOrder file.2 with
  | .error e => throw e
  | .ok none => pure ()
  | .ok (some bitmap) =>
      modify fun dir => { dir with collect := dir.collect.write file.1 bitmap }

/-- `fix_ijam.py`, from the directory for dumps into the one with collected bitmaps. -/
def main (keyOrder : DictOrder Point) (listing : DictOrder (BitmapName × Bitmap)) :
    EStateM PyError BitmapDir Unit := do
  ((← get).dump.glob listing isArabic).forM (processFile keyOrder)

end FixIjam

end Elbbep
