import Elbbep.Patch
import Elbbep.TextShaper

/-!
# The hooks around the firmware's text functions

The patched firmware measures and draws texts through `runtime/patch.c`, `runtime/patch.S` and
the code that `patch.py` injects.  A text is shaped in place before the firmware reads it and,
on most platforms, unshaped afterwards; every line is reordered in place around the call of its
render handler.

The firmware itself only reads the texts.  What it makes of them is not modelled: a hook hands
out the memory as the firmware finds it.
-/

namespace Elbbep

open ByteMemory

/-- `TEXT_UNSHAPE`, from `PLATFORM_UNSHAPE_MAP`. -/
def textUnshape (platform : String) : Bool :=
  (List.lookup platform [("aplite", false)]).getD true

/-- The overflow mode with which the diagnostics app asks whether the firmware is patched. -/
def diagnosticsCookie : Nat := 0xE5

/-- What a text is unshaped with, where the platform unshapes. -/
def unshapeAfter (tables : ShaperTables) (unshape : Bool) (m : Memory) (text : Int) :
    Except Fault Memory :=
  if unshape then unshapeText tables m text else .ok m

/-- `graphics_text_layout_get_content_size_with_attributes_patch`, with the memory that the
firmware's own function reads.  `graphics_text_layout_get_content_size_patch` ends in it. -/
def contentSizePatch (tables : ShaperTables) (unshape : Bool) (m : Memory) (text : Int)
    (overflowMode : Nat) : Except Fault (Memory × Memory) := do
  let seen ← shapeText tables m text
  let after ← unshapeAfter tables (unshape && overflowMode != diagnosticsCookie) seen text
  .ok (seen, after)

/-- One call of the render handler: the start of the line, the register `more_text` and the two
line ends on the stack. -/
structure RenderCall where
  lineStart : Int
  moreText : Bool
  lineEnd1 : Int
  lineEnd2 : Int
  deriving DecidableEq, Repr

/-- `render_wrap`, with the memory that the handler reads. -/
def renderWrap (tables : ShaperTables) (m : Memory) (call : RenderCall) :
    Except Fault (Memory × Memory) := do
  let seen ← renderRtlStep tables m call.lineStart call.moreText call.lineEnd1 call.lineEnd2
  let after ← renderRtlStep tables seen call.lineStart call.moreText call.lineEnd1 call.lineEnd2
  .ok (seen, after)

/-- The calls that the layout driver makes for the lines of a text. -/
def renderLines (tables : ShaperTables) :
    List RenderCall → Memory → Except Fault (List Memory × Memory)
  | [], m => .ok ([], m)
  | call :: calls, m => do
      let (seen, m) ← renderWrap tables m call
      let (more, m) ← renderLines tables calls m
      .ok (seen :: more, m)

/-- What the firmware is given to draw. -/
structure Drawing where
  alignment : GTextAlignment
  seen : Memory
  lines : List Memory

/-- `graphics_draw_text_patch`, up to `graphics_draw_text_unshape` at the end of the firmware's
own function.  The alignment is decided on the shaped text. -/
def drawTextPatch (tables : ShaperTables) (unshape : Bool) (m : Memory) (text : Int)
    (alignment : GTextAlignment) (calls : List RenderCall) : Except Fault (Drawing × Memory) := do
  let seen ← shapeText tables m text
  let alignment ← gdtAlignmentStep tables seen text alignment
  let (lines, m) ← renderLines tables calls seen
  let after ← unshapeAfter tables unshape m text
  .ok (⟨alignment, seen, lines⟩, after)

/-! ## Sessions -/

/-- A call of a hooked function, with the lines in which the firmware draws the text. -/
inductive HookCall
  | contentSize (text : Int) (overflowMode : Nat)
  | drawText (text : Int) (alignment : GTextAlignment) (calls : List RenderCall)

def HookCall.text : HookCall → Int
  | .contentSize text _ => text
  | .drawText text _ _ => text

/-- What the firmware finds in the course of a call. -/
inductive Observation
  | measured (seen : Memory)
  | drawn (drawing : Drawing)

def runHook (tables : ShaperTables) (unshape : Bool) (m : Memory) :
    HookCall → Except Fault (Observation × Memory)
  | .contentSize text overflowMode => do
      let (seen, m) ← contentSizePatch tables unshape m text overflowMode
      .ok (.measured seen, m)
  | .drawText text alignment calls => do
      let (drawing, m) ← drawTextPatch tables unshape m text alignment calls
      .ok (.drawn drawing, m)

/-- The calls of the apps that run on the watch, one after the other. -/
def runHooks (tables : ShaperTables) (unshape : Bool) :
    List HookCall → Memory → Except Fault (List Observation × Memory)
  | [], m => .ok ([], m)
  | call :: calls, m => do
      let (observation, m) ← runHook tables unshape m call
      let (more, m) ← runHooks tables unshape calls m
      .ok (observation :: more, m)

end Elbbep
