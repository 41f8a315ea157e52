import Elbbep.PythonStruct

/-!
# Finding the system fonts

`extract_system_font_resource_ids` of `fonts/find_system_fonts.py`.  The firmware has a table
of pointers to the names of resources, each followed by the id of the resource.  The scan
keeps two dictionaries, which may be one and the same, so they are objects here.
-/

namespace Elbbep

namespace FindSystemFonts

open PythonStruct

def microcodeOffset : Nat := 0x8000000

def bootloaderOffset : Nat := 0x4000

/-- A position in a slice, which counts from the end when it is negative. -/
def sliceIndex (length : Nat) (index : Int) : Nat :=
  if index < 0 then (index + length).toNat else min index.toNat length

/-- `bytes[start:stop]` with possibly negative positions. -/
def pySlice (bytes : List UInt8) (start stop : Int) : List UInt8 :=
  slice bytes (sliceIndex bytes.length start) (sliceIndex bytes.length stop)

def resourceIdPrefix : List UInt8 :=
  "RESOURCE_ID".toList.map fun c => UInt8.ofNat c.toNat

/-- The name to which a word points, if it points to the name of a resource. -/
def nameAt (targetBin : List UInt8) (lastWord : Nat) : Except PyError (Option (List UInt8)) :=
  let namePtr : Int := (lastWord : Int) - microcodeOffset - bootloaderOffset
  if pySlice targetBin namePtr (namePtr + 11) = resourceIdPrefix then
    match (pySlice targetBin namePtr targetBin.length).idxOf? 0 with
    | some stop => .ok (some (pySlice targetBin namePtr (stop + namePtr)))
    | none => .error .valueError
  else .ok none

section Scan

variable {Name : Type} [DecidableEq Name]

/-- `table[name] = resid`. -/
def setName (table : List (Name × Nat)) (name : Name) (resid : Nat) : List (Name × Nat) :=
  if name ∈ table.map Prod.fst then
    table.map fun entry => if entry.1 = name then (name, resid) else entry
  else table ++ [(name, resid)]

/-- The variables of the scan.  The tables are positions in the list of objects. -/
structure ScanState (Name : Type) where
  lastWord : Nat
  objects : List (List (Name × Nat))
  finalTable : Nat
  workTable : Nat
  sinceLast : Nat

namespace ScanState

def object (state : ScanState Name) (table : Nat) : List (Name × Nat) :=
  state.objects.getD table []

def start : ScanState Name :=
  ⟨0, [[], []], 0, 1, 0⟩

/-- The name in front of the current word. -/
def findName (nameAt : Nat → Except PyError (Option Name)) (state : ScanState Name) :
    Except PyError (Option Name) :=
  if state.lastWord > microcodeOffset ∧ state.lastWord < 0x9000000 then nameAt state.lastWord
  else .ok none

/-- The update of the work table. -/
def record (state : ScanState Name) (word : Nat) : Option Name → ScanState Name
  | some fullName => { state with
      objects := state.objects.modify state.workTable fun table =>
        setName table fullName (word % 2 ^ 16)
      sinceLast := 0 }
  | none => { state with sinceLast := state.sinceLast + 1 }

/-- Resetting the work table, or saving it. -/
def save (state : ScanState Name) : ScanState Name :=
  if state.sinceLast > 2 then
    { state with
      objects := state.objects ++ [[]]
      workTable := state.objects.length }
  else if (state.object state.workTable).length > (state.object state.finalTable).length then
    { state with finalTable := state.workTable }
  else state

/-- The body of the loop. -/
def step (nameAt : Nat → Except PyError (Option Name)) (state : ScanState Name) (word : Nat) :
    Except PyError (ScanState Name) := do
  let found ← state.findName nameAt
  .ok { (state.record word found).save with lastWord := word }

end ScanState

def scanWords (nameAt : Nat → Except PyError (Option Name)) (words : List Nat) :
    Except PyError (List (Name × Nat)) := do
  let state ← words.foldlM (ScanState.step nameAt) .start
  .ok (state.object state.finalTable)

end Scan

/-- `struct.unpack("<LL…", target_bin)`. -/
def unpackWords : List UInt8 → List Nat
  | b0 :: b1 :: b2 :: b3 :: rest => u32 b0 b1 b2 b3 :: unpackWords rest
  | _ => []

def padWords (targetBin : List UInt8) : List UInt8 :=
  if targetBin.length % 4 ≠ 0 then
    targetBin ++ List.replicate (4 - targetBin.length % 4) 0
  else targetBin

/-- `extract_system_font_resource_ids`, on the contents of the firmware image. -/
def extractSystemFontResourceIds (targetBin : List UInt8) :
    Except PyError (List (List UInt8 × Nat)) :=
  scanWords (nameAt (padWords targetBin)) (unpackWords (padWords targetBin))

end FindSystemFonts

end Elbbep
