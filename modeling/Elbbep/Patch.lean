import Elbbep.Rtl

/-!
# The patched firmware calls

`runtime/patch.c` hooks the firmware's text layout.  `gdtAlignmentStep` decides
whether left alignment should be swapped, and `renderRtlStep` reorders a line
before it is drawn; the hook around the render handler calls it once more
afterwards, to restore the line.
-/

namespace Elbbep

open ByteMemory

inductive GTextAlignment
  | left
  | center
  | right
  deriving DecidableEq, Repr

/-- The loop of `gdt_alignment_step`, up to the first opinionated character. -/
def alignmentLoop (tables : ShaperTables) (m : Memory) (alignment : GTextAlignment) :
    (fuel : Nat) → (ptr : Int) → Except Fault GTextAlignment
  | 0, _ => .error .outOfFuel
  | fuel + 1, ptr => do
      let byte ← m.load ptr
      if byte ≠ 0 then
        let (codept, ptr) ← readUtf8 m ptr
        if isNeutral codept || isWeakLtr codept then alignmentLoop tables m alignment fuel ptr
        else if tables.isRtl codept then .ok .right
        else .ok alignment
      else .ok alignment

/-- `gdt_alignment_step`. -/
def gdtAlignmentStep (tables : ShaperTables) (m : Memory) (text : Int)
    (alignment : GTextAlignment) : Except Fault GTextAlignment :=
  if alignment = .left then alignmentLoop tables m alignment ((m.high - text).toNat + 1) text
  else .ok alignment

def sramBase : Int := 0x10000000

/-- The loop of `render_rtl_step` that leaves out trailing spaces. -/
def trimLine (m : Memory) (lineStart : Int) : (fuel : Nat) → (lineEnd : Int) → Except Fault Int
  | 0, _ => .error .outOfFuel
  | fuel + 1, lineEnd =>
      if lineEnd > lineStart then do
        let byte ← m.load (lineEnd - 1)
        if byte = UInt8.ofNat ' '.toNat then trimLine m lineStart fuel (lineEnd - 1)
        else .ok lineEnd
      else .ok lineEnd

/-- `render_rtl_step`, with the two line ends that it finds on the caller's stack. -/
def renderRtlStep (tables : ShaperTables) (m : Memory) (lineStart : Int) (moreText : Bool)
    (lineEnd1 lineEnd2 : Int) : Except Fault Memory :=
  if lineStart ≥ sramBase then do
    let byte ← m.load lineStart
    if byte ≠ 0 then
      let lineEnd := if moreText then lineEnd1 else lineEnd2
      let lineEnd ← trimLine m lineStart ((lineEnd - lineStart).toNat + 1) lineEnd
      let (m, _) ← rtlApply tables m lineStart lineEnd
      .ok m
    else .ok m
  else .ok m

end Elbbep
