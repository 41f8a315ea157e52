import Elbbep.HashChains
import Elbbep.PythonStruct

/-!
# Resource packs

`pack_resources` and `unpack_resources` of `generator.py`, with the checksum of
`pebblesdk/stm32_crc.py`.  A pack has a header, a table of a fixed number of entries, and
the data, where resources with the same contents share one copy.
-/

namespace Elbbep

namespace ResourcePack

open PythonStruct HashChains

/-! ## The checksum -/

def crcPoly : Nat := 0x04C11DB7

/-- One bit of a word. -/
def processBit (crc : Nat) : Nat :=
  if crc &&& 0x80000000 ≠ 0 then (crc <<< 1) ^^^ crcPoly else crc <<< 1

/-- One word of the buffer. -/
def processWord (crc word : Nat) : Nat :=
  (Nat.iterate processBit 32 (crc ^^^ word)) % 2 ^ 32

/-- The words of `array.array('I', buf)`. -/
def wordsOf : List UInt8 → List Nat
  | b0 :: b1 :: b2 :: b3 :: rest => u32 b0 b1 b2 b3 :: wordsOf rest
  | _ => []

/-- The last bytes are reversed and filled with zeros. -/
def padBuffer (buf : List UInt8) : List UInt8 :=
  let wordCount := buf.length / 4
  if buf.length % 4 ≠ 0 then
    buf.take (wordCount * 4) ++ (buf.drop (wordCount * 4)).reverse ++
      List.replicate (4 - buf.length % 4) 0
  else buf

def crc32 (data : List UInt8) : Nat :=
  (wordsOf (padBuffer data)).foldl processWord 0xffffffff

theorem crc32_lt (data : List UInt8) : crc32 data < 4294967296 := by
  have step (words : List Nat) (crc : Nat) (small : crc < 4294967296) :
      words.foldl processWord crc < 4294967296 := by
    induction words generalizing crc with
    | nil => exact small
    | cons word words ih => exact ih _ (Nat.mod_lt _ (by norm_num))
  exact step _ _ (by norm_num)

/-! ## Packing -/

def maxResources : Nat := 512

/-- The variables of the loop. -/
structure PackState where
  dataOffsetMap : List (List UInt8 × Nat)
  resourceTable : List UInt8
  resourceData : List UInt8

/-- A resource is a path to its contents, or there is none. -/
def contentsOf (resource : Nat × Option (List UInt8)) : List UInt8 :=
  resource.2.getD []

/-- `struct.pack("<IIII", …)`. -/
def packEntry (resid offset size crc : Nat) : Except PyError (List UInt8) := do
  let resid ← packL resid
  let offset ← packL offset
  let size ← packL size
  let crc ← packL crc
  .ok (resid ++ offset ++ size ++ crc)

/-- The offset of some data, which is added when it is new. -/
def PackState.place (state : PackState) (data : List UInt8) : Nat × PackState :=
  match state.dataOffsetMap.lookup data with
  | some offset => (offset, state)
  | none =>
      let offset := state.resourceData.length
      (offset, { state with
        resourceData := state.resourceData ++ data
        dataOffsetMap := state.dataOffsetMap ++ [(data, offset)] })

def addResource (state : PackState) (resource : Nat × Option (List UInt8)) :
    Except PyError PackState := do
  let data := contentsOf resource
  let (offset, state) := state.place data
  let entry ← packEntry resource.1 offset data.length (crc32 data)
  .ok { state with resourceTable := state.resourceTable ++ entry }

def sortResources (resmap : List (Nat × Option (List UInt8))) :
    List (Nat × Option (List UInt8)) :=
  resmap.insertionSort fun a b => a.1 ≤ b.1

/-- `pack_resources`, as the contents of the file. -/
def packResources (resmap : List (Nat × Option (List UInt8))) (maxResources : Nat) :
    Except PyError (List UInt8) := do
  let resources := sortResources resmap
  let state ← resources.foldlM addResource ⟨[], [], []⟩
  let resourceTable := state.resourceTable ++
    (List.range (maxResources - resources.length)).flatMap fun _ => List.replicate 16 0
  if resourceTable.length = maxResources * 16 then do
    let count ← packL resources.length
    let crc ← packL (crc32 state.resourceData)
    let zero ← packL 0
    .ok (count ++ crc ++ zero ++ resourceTable ++ state.resourceData)
  else .error .assertionError

/-! ## Unpacking -/

/-- An entry of the table: id, offset, size and checksum. -/
structure Entry where
  resid : Nat
  offset : Nat
  size : Nat
  crc : Nat
  deriving DecidableEq, Repr

def offsetTableOffset : Nat := 0xC

def unpackCount : List UInt8 → Except PyError Nat
  | [b0, b1, b2, b3] => .ok (u32 b0 b1 b2 b3)
  | _ => .error .structError

def unpackEntry : List UInt8 → Except PyError Entry
  | [i0, i1, i2, i3, o0, o1, o2, o3, s0, s1, s2, s3, c0, c1, c2, c3] =>
      .ok ⟨u32 i0 i1 i2 i3, u32 o0 o1 o2 o3, u32 s0 s1 s2 s3, u32 c0 c1 c2 c3⟩
  | _ => .error .structError

/-- The table, read entry by entry. -/
def readTable (pbpack : List UInt8) : Except PyError (List Entry) := do
  let nResources ← unpackCount (slice pbpack 0 4)
  (List.range nResources).mapM fun i =>
    unpackEntry (slice pbpack (offsetTableOffset + i * 16) (offsetTableOffset + i * 16 + 16))

/-- `"%03d" % resid`. -/
def resourceName (resid : Nat) : List Char :=
  let digits := Nat.digits 10 resid
  ((digits ++ List.replicate (3 - digits.length) 0).map Nat.digitChar).reverse

/-- `unpack_resources`: the names and the contents of the files that are written. -/
def unpackResources (pbpack : List UInt8) : Except PyError (List (List Char × List UInt8)) := do
  let resources ← readTable pbpack
  let resBase := offsetTableOffset + maxResources * 16
  .ok (resources.map fun resource => (resourceName resource.resid,
    slice pbpack (resBase + resource.offset) (resBase + resource.offset + resource.size)))

end ResourcePack

end Elbbep
