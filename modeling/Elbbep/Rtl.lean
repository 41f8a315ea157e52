import Elbbep.RtlRanges

/-!
# Reordering a line

`rtlApply` embeds `runtime/rtl.c`.  It walks a line with one rune of lookahead
and reverses every right-to-left span in place: first byte by byte, then rune
by rune to put the bytes of each rune back in order.  Numerals inside a span are
reversed beforehand, so that the reversal of the span leaves them readable, and
brackets inside a span are mirrored.
-/

namespace Elbbep

open ByteMemory

/-- `SWAP`. -/
def swapBytes (m : Memory) (a b : Int) : Except Fault Memory := do
  let swap ← m.load a
  let other ← m.load b
  .ok ((m.store a other).store b swap)

/-- The naive byte-wise reversal; `endIter` has been decremented already. -/
def reverseBytes : (fuel : Nat) → Memory → (startIter endIter : Int) → Except Fault Memory
  | 0, _, _, _ => .error .outOfFuel
  | fuel + 1, m, startIter, endIter =>
      if startIter < endIter then do
        let m ← swapBytes m startIter endIter
        reverseBytes fuel m (startIter + 1) (endIter - 1)
      else .ok m

/-- Rotating the rune that ends at `endIter` back, by its lead byte there.
Returns where the rune starts. -/
def rotateRune (m : Memory) (endIter : Int) : Except Fault (Memory × Int) := do
  let byte ← m.load endIter
  match byte.toNat >>> 4 with
  | 0xF => do
      let m ← swapBytes m (endIter - 3) endIter
      let m ← swapBytes m (endIter - 2) (endIter - 1)
      .ok (m, endIter - 3)
  | 0xE => do
      let m ← swapBytes m (endIter - 2) endIter
      .ok (m, endIter - 2)
  | 0xC | 0xD => do
      let m ← swapBytes m (endIter - 1) endIter
      .ok (m, endIter - 1)
  | _ => .ok (m, endIter)

/-- "Then run through again, rotating the UTF8 runes back." -/
def rotateRunes (start : Int) : (fuel : Nat) → Memory → (endIter : Int) → Except Fault Memory
  | 0, _, _ => .error .outOfFuel
  | fuel + 1, m, endIter =>
      if endIter - 1 ≥ start then do
        let (m, endIter) ← rotateRune m (endIter - 1)
        rotateRunes start fuel m endIter
      else .ok m

/-- `reverse_span`. -/
def reverseSpan (m : Memory) (start stop : Int) : Except Fault Memory := do
  let m ← reverseBytes ((stop - start).toNat + 1) m start (stop - 1)
  rotateRunes start ((stop - start).toNat + 1) m stop

/-- `RTL_SWAPS`: pairs of characters that are exchanged in a right-to-left span. -/
def rtlSwaps : List UInt8 :=
  "{}[]()<>".toList.map fun c => UInt8.ofNat c.toNat

/-- The partner of a byte in `RTL_SWAPS`, at the index with its last bit flipped. -/
def swapped (val : UInt8) : Option UInt8 :=
  (rtlSwaps.idxOf? val).bind fun i => rtlSwaps[i ^^^ 1]?

/-- `apply_swaps`. -/
def applySwaps (m : Memory) (ch : Int) : Except Fault Memory := do
  let val ← m.load ch
  match swapped val with
  | some partner => .ok (m.store ch partner)
  | none => .ok m

/-- The locals of `rtl_apply`; a null span start is `none`. -/
structure RtlLocals where
  didTransform : Bool
  rtlSpanStart : Option Int
  weakLtrSpanStart : Option Int
  iter : Int
  nextCodeptPtr : Int
  nextCodept : Nat
  thisCodeptPtr : Int
  thisCodept : Nat

namespace RtlLocals

/-- The window moved by one rune. -/
def readForward (m : Memory) (lineEnd : Int) (locals : RtlLocals) : Except Fault RtlLocals := do
  let shifted := { locals with
    thisCodept := locals.nextCodept
    thisCodeptPtr := locals.nextCodeptPtr }
  let ended := { shifted with
    nextCodept := 0
    nextCodeptPtr := 0 }
  if shifted.iter < lineEnd then
    let byte ← m.load shifted.iter
    if byte ≠ 0 then
      let (codept, iter) ← readUtf8 m shifted.iter
      .ok { shifted with
        nextCodeptPtr := shifted.iter
        nextCodept := codept
        iter := iter }
    else .ok ended
  else .ok ended

/-- "Weak LTR spans are handled by pre-reversal."  Also returns whether the rune
counts as neutral from here on. -/
def handleWeakLtr (m : Memory) (locals : RtlLocals) : Except Fault (Memory × Bool × RtlLocals) :=
  let neutral := isNeutral locals.thisCodept
  let weakLtr := isWeakLtr locals.thisCodept
  match locals.rtlSpanStart, locals.weakLtrSpanStart with
  | some _, weakLtrSpanStart =>
      if weakLtr then
        .ok (m, true, { locals with
          weakLtrSpanStart := some (weakLtrSpanStart.getD locals.thisCodeptPtr) })
      else if !neutral then
        match weakLtrSpanStart with
        | some start => do
            let m ← reverseSpan m start locals.thisCodeptPtr
            .ok (m, neutral, { locals with weakLtrSpanStart := none })
        | none => .ok (m, neutral, locals)
      else .ok (m, neutral, locals)
  | none, _ => .ok (m, neutral, locals)

/-- The part of the loop body that opens, continues and closes spans. -/
def handleSpan (tables : ShaperTables) (m : Memory) (neutral : Bool) (locals : RtlLocals) :
    Except Fault (Memory × RtlLocals) :=
  let rtl := tables.isRtl locals.thisCodept
  let next := locals.nextCodept
  match locals.rtlSpanStart with
  | none =>
      if rtl && next ≠ 0 then
        .ok (m, { locals with rtlSpanStart := some locals.thisCodeptPtr })
      else .ok (m, locals)
  | some start =>
      if neutral && (tables.isRtl next || isNeutral next || isWeakLtr next || next < 0x20) then do
        -- Continue: include the neutral character in the span.
        let m ← applySwaps m locals.thisCodeptPtr
        .ok (m, locals)
      else if !rtl then do
        -- Finished a span: reverse it.
        let m ← reverseSpan m start locals.thisCodeptPtr
        .ok (m, { locals with
          didTransform := true
          rtlSpanStart := none
          weakLtrSpanStart := none })
      else .ok (m, locals)

end RtlLocals

/-- The `do`-`while` loop of `rtl_apply`. -/
def rtlLoop (tables : ShaperTables) (lineEnd : Int) :
    (fuel : Nat) → Memory → RtlLocals → Except Fault (Memory × RtlLocals)
  | 0, _, _ => .error .outOfFuel
  | fuel + 1, m, locals => do
      let read ← locals.readForward m lineEnd
      let (m, neutral, weak) ← read.handleWeakLtr m
      let (m, handled) ← weak.handleSpan tables m neutral
      if handled.nextCodept ≠ 0 then rtlLoop tables lineEnd fuel m handled
      else .ok (m, handled)

/-- The spans that are still open at the end of the line. -/
def closeSpans (m : Memory) (locals : RtlLocals) : Except Fault (Memory × Bool) := do
  let m ← match locals.weakLtrSpanStart with
    | some start => reverseSpan m start locals.iter
    | none => .ok m
  match locals.rtlSpanStart with
  | some start => do
      let m ← reverseSpan m start locals.iter
      .ok (m, true)
  | none => .ok (m, locals.didTransform)

/-- `rtl_apply`, which reads its first rune unconditionally. -/
def rtlApply (tables : ShaperTables) (m : Memory) (lineStart lineEnd : Int) :
    Except Fault (Memory × Bool) := do
  let (codept, iter) ← readUtf8 m lineStart
  let (m, locals) ← rtlLoop tables lineEnd ((lineEnd - lineStart).toNat + 1) m
    ⟨false, none, none, iter, lineStart, codept, 0, 0⟩
  closeSpans m locals

end Elbbep
