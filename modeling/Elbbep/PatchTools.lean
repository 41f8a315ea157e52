import Elbbep.PythonStruct

/-!
# Patching the firmware

The `Patcher` of `patch_tools.py`.  Operations are queued and carried out by `finalize`,
which links the patch behind the firmware image, splices branches to it into the image and
appends it.  The compiler, the linker and the tools that take the linked patch apart are a
parameter.
-/

namespace Elbbep

namespace PatchTools

open PythonStruct

inductive Platform
  | aplite
  | basalt
  | chalk
  | diorite
  deriving DecidableEq, Repr

inductive Target
  | hardware
  | emulator
  deriving DecidableEq, Repr

def Target.bootloaderSize : Target → Nat
  | hardware => 0x4000
  | emulator => 0

def Target.microcodeOffset (target : Target) : Nat :=
  0x8000000 + target.bootloaderSize

/-- The queued operations. -/
inductive PatchOp
  | overwrite (address : Nat) (content : List UInt8)
  | branchOffset (address : Nat) (symbol : String) (link : Bool)
  | appendAsm (symbol content returnType : String)
  | defineSymbol (name : String) (address : Nat)
  | defineMacro (name value : String)
  deriving DecidableEq, Repr

structure Patcher where
  platform : Platform
  target : Target
  targetBin : List UInt8
  opQueue : List PatchOp

namespace Patcher

variable (patcher : Patcher)

def maxImageSize : Nat :=
  (match patcher.platform with
    | .aplite => 1024 * 512
    | .basalt | .chalk | .diorite => 1024 * 1024) - patcher.target.bootloaderSize

/-- The footer that the phone checks, saved before the image is changed. -/
def trailingBinContent : List UInt8 :=
  match patcher.target with
  | .hardware => patcher.targetBin.drop (patcher.targetBin.length - 47)
  | .emulator => []

/-! ## The symbol table -/

end Patcher

/-- An element of a pattern: a literal byte, or any byte. -/
inductive PatternByte
  | literal (byte : UInt8)
  | any
  deriving DecidableEq, Repr

/-- A pattern at the start of some bytes. -/
def matchesAt : List PatternByte → List UInt8 → Bool
  | [], _ => true
  | _ :: _, [] => false
  | .literal byte :: pattern, other :: bytes => byte == other && matchesAt pattern bytes
  | .any :: pattern, _ :: bytes => matchesAt pattern bytes

/-- The start of the first match. -/
def findPattern (pattern : List PatternByte) (bytes : List UInt8) : Option Nat :=
  (List.range (bytes.length + 1)).find? fun start => matchesAt pattern (bytes.drop start)

/-- A pointer into the firmware: three bytes, and `0x08`. -/
def pointerPattern : List PatternByte :=
  [.any, .any, .any, .literal 8]

/-- The loop that accumulates the pattern, from `last_idx` on. -/
def jumpTablePattern (lastIdx : Nat) : List Nat → List PatternByte
  | [] => []
  | idx :: offsets =>
      List.replicate (idx - lastIdx - 4) (.literal 0) ++ pointerPattern ++
        jumpTablePattern idx offsets

/-- `struct.unpack("<I", …)`. -/
def unpackI : List UInt8 → Except PyError Nat
  | [b0, b1, b2, b3] => .ok (u32 b0 b1 b2 b3)
  | _ => .error .structError

/-- The file position of a function, from its slot in the jump table. -/
def readJumpTable (target : Target) (targetBin : List UInt8) (jumpTblMatchBase offset : Nat) :
    Except PyError Int := do
  let ptrOffset := jumpTblMatchBase + offset
  let absAddr ← unpackI (slice targetBin ptrOffset (ptrOffset + 4))
  if absAddr % 2 = 1 then .ok (((absAddr - 1 : Nat) : Int) - target.microcodeOffset)
  else .error .assertionError

/-- `_build_symbol_table`, for the offsets that are found in the library. -/
def buildSymbolTable (target : Target) (targetBin : List UInt8)
    (funcOffsetMap : List (String × Nat)) : Except PyError (List (String × Int)) :=
  let offsets := (funcOffsetMap.map Prod.snd).insertionSort (· ≤ ·)
  match findPattern (jumpTablePattern 0 offsets) targetBin with
  | none => .error .stopIteration
  | some jumpTblMatchBase => funcOffsetMap.mapM fun entry => do
      let fileRelAddr ← readJumpTable target targetBin jumpTblMatchBase entry.2
      .ok (entry.1, fileRelAddr)

namespace Patcher

/-! ## Queueing operations -/

/-- The markers of a match. -/
structure Markers where
  jump : Nat
  stop : Option Nat

def hex (value : Nat) : String :=
  String.ofList (Nat.toDigits 16 value)

def queue (patcher : Patcher) (ops : List PatchOp) : Patcher :=
  { patcher with opQueue := patcher.opQueue ++ ops }

/-- A jump to a proxy, which is assembled when there is code for it. -/
def inject (patcher : Patcher) (destSymbol : String) (markers : Markers) (asm : String) :
    Patcher :=
  patcher.queue
    ([.branchOffset markers.jump (destSymbol ++ "__proxy") false,
        .defineSymbol (destSymbol ++ "__return")
          (patcher.target.microcodeOffset + (markers.jump + 4))] ++
      if asm = "" then [] else [.appendAsm (destSymbol ++ "__proxy") asm "void"])

/-- The instructions that a jump overwrites, and a branch back. -/
def passthruAsm (patcher : Patcher) (destSymbol : String) (start stop : Nat) : String :=
  String.join ((slice patcher.targetBin start stop).map fun byte =>
    ".byte 0x" ++ hex byte.toNat ++ "\n") ++ "B " ++ destSymbol ++ "__return\n"

/-- A jump to the wrapper of a procedure. -/
def wrap (patcher : Patcher) (destSymbol : String) (markers : Markers) (returnType : String)
    (passthru : Bool) : Patcher :=
  let endPatchAddr := markers.stop.getD (markers.jump + 4)
  patcher.queue
    ([.branchOffset markers.jump destSymbol false,
        .defineSymbol (destSymbol ++ "__return")
          (patcher.target.microcodeOffset + endPatchAddr)] ++
      if passthru then
        [.appendAsm (destSymbol ++ "__passthru")
          (patcher.passthruAsm destSymbol markers.jump endPatchAddr) returnType]
      else [])

def defineFunction (patcher : Patcher) (destSymbol : String) (targetAddr : Nat) : Patcher :=
  patcher.queue [.defineSymbol destSymbol targetAddr]

def defineMacro (patcher : Patcher) (name value : String) : Patcher :=
  patcher.queue [.defineMacro name.toUpper value]

end Patcher

/-! ## Carrying them out -/

def patchHPrologue : String :=
  "// THIS FILE IS AUTOMATICALLY GENERATED\n#define CALLSITE_SP\n" ++
    "#define PASSTHRU(name, ...) name ## __passthru(__VA_ARGS__)\n#define REGISTER_MATCH(reg)\n"

/-- `patch.auto.h`: the declarations, then the macros. -/
def composePatchH (opQueue : List PatchOp) : String :=
  patchHPrologue ++
    String.join (opQueue.map fun op =>
      match op with
      | .appendAsm symbol _ returnType => returnType ++ " " ++ symbol ++ " ();\n"
      | _ => "") ++
    String.join (opQueue.map fun op =>
      match op with
      | .defineMacro name value => "#define " ++ name ++ " " ++ value ++ "\n"
      | _ => "")

/-- `patch.comp.s`: the assembled procedures, then the symbols. -/
def composePatchS (opQueue : List PatchOp) : String :=
  ".syntax unified\n.thumb\n" ++
    String.join (opQueue.map fun op =>
      match op with
      | .appendAsm symbol content _ =>
          ".thumb_func\n.global " ++ symbol ++ "\n" ++ symbol ++ ":\n\t" ++
            "\n\t".intercalate (content.splitOn "\n") ++ "\n"
      | _ => "") ++
    String.join (opQueue.map fun op =>
      match op with
      | .defineSymbol name address =>
          ".global " ++ name ++ "\n.thumb_set " ++ name ++ ", 0x" ++ Patcher.hex address ++ "\n"
      | _ => "")

/-- What `nm` and `objcopy` find in the linked patch. -/
structure Linked where
  symtab : String → Option Nat
  bin : List UInt8

/-- Compiling and linking a patch, from the composed files and the origin in the linker script. -/
def Toolchain : Type :=
  (patchH patchS : String) → (targetEnd : Nat) → Except PyError Linked

def applyOverwrite (targetBin : List UInt8) : PatchOp → List UInt8
  | .overwrite address content =>
      targetBin.take address ++ content ++ targetBin.drop (address + content.length)
  | _ => targetBin

/-- The wide branch over a displacement. -/
def branchInstr (displacement : Int) (link : Bool) : Nat :=
  let offset : Int := displacement >>> (1 : Nat)
  let s : Nat := if offset > 0 then 0 else 1
  let i1 : Nat := ((offset >>> (23 : Nat)) % 2).toNat
  let j1 : Nat := if s ^^^ i1 ≠ 0 then 0 else 1
  let i2 : Nat := ((offset >>> (22 : Nat)) % 2).toNat
  let j2 : Nat := if s ^^^ i2 ≠ 0 then 0 else 1
  let imm10 : Nat := ((offset >>> (11 : Nat)) % 2 ^ 10).toNat
  let imm11 : Nat := (offset % 2 ^ 11).toNat
  let instr := 0b11110000000000001001000000000000 |||
    ((s <<< 26) ||| (imm10 <<< 16) ||| (j1 <<< 13) ||| (j2 <<< 11) ||| imm11)
  if link then instr ||| (1 <<< 14) else instr

def applyBranch (target : Target) (symtab : String → Option Nat) (targetBin : List UInt8) :
    PatchOp → Except PyError (List UInt8)
  | .branchOffset address symbol link =>
      match symtab symbol with
      | none => .error .keyError
      | some symbolAddr => do
          let finalAddr : Int := symbolAddr - target.microcodeOffset
          let instr := branchInstr (finalAddr - address - 4) link
          let first ← packH (instr >>> 16 : Nat)
          let second ← packH (instr % 2 ^ 16 : Nat)
          .ok (targetBin.take address ++ (first ++ second) ++ targetBin.drop (address + 4))
  | _ => .ok targetBin

/-- "Make sure patch code will be aligned." -/
def alignPatch (targetBin : List UInt8) : List UInt8 :=
  if targetBin.length % 2 = 1 then targetBin ++ [0] else targetBin

namespace Patcher

/-- `@TARGET_END@` in the linker script. -/
def targetEnd (patcher : Patcher) : Nat :=
  patcher.targetBin.length + patcher.target.microcodeOffset

/-- `finalize`, as the contents of the final image. -/
def finalize (toolchain : Toolchain) (patcher : Patcher) : Except PyError (List UInt8) := do
  let linked ← toolchain (composePatchH patcher.opQueue) (composePatchS patcher.opQueue)
    patcher.targetEnd
  let overwritten := patcher.opQueue.foldl applyOverwrite patcher.targetBin
  let branched ← patcher.opQueue.foldlM (applyBranch patcher.target linked.symtab) overwritten
  let final := alignPatch branched ++ linked.bin ++ patcher.trailingBinContent
  if final.length ≤ patcher.maxImageSize then .ok final else .error .assertionError

end Patcher

end PatchTools

end Elbbep
