import Elbbep.ResourcePack

/-!
# Resource packs round-trip

While resources are added, the data is the concatenation of the distinct contents so far,
and every entry of the table has the offset of its contents among them.
-/

namespace Elbbep

namespace ResourcePack

open PythonStruct HashChains

/-! ## Names -/

/-- The number in a name. -/
def residOf (name : List Char) : Nat :=
  Nat.ofDigits 10 (name.reverse.map fun c => c.toNat - '0'.toNat)

theorem residOf_resourceName (resid : Nat) : residOf (resourceName resid) = resid := by
  have digit (d : Nat) (small : d < 10) : (Nat.digitChar d).toNat - '0'.toNat = d := by
    interval_cases d <;> rfl
  have small : ∀ d ∈ Nat.digits 10 resid ++
      List.replicate (3 - (Nat.digits 10 resid).length) 0, d < 10 := by
    intro d member
    rcases List.mem_append.mp member with inDigits | inZeros
    · exact Nat.digits_lt_base (by norm_num) inDigits
    · rw [List.eq_of_mem_replicate inZeros]
      norm_num
  have kept : (Nat.digits 10 resid ++ List.replicate (3 - (Nat.digits 10 resid).length) 0).map
      ((fun c : Char => c.toNat - '0'.toNat) ∘ Nat.digitChar) =
      Nat.digits 10 resid ++ List.replicate (3 - (Nat.digits 10 resid).length) 0 :=
    (List.map_congr_left fun d member => digit d (small d member)).trans (List.map_id' _)
  rw [residOf, resourceName, List.reverse_reverse, List.map_map, kept, Nat.ofDigits_append,
    Nat.ofDigits_digits]
  simp

theorem resourceName_injective : Function.Injective resourceName :=
  Function.LeftInverse.injective residOf_resourceName

/-! ## Offsets -/

/-- Where some data stands among the contents. -/
def offsetIn (contents : List (List UInt8)) (data : List UInt8) : Nat :=
  ((contents.takeWhile (· != data)).flatten).length

theorem offsetIn_cons_self (contents : List (List UInt8)) (data : List UInt8) :
    offsetIn (data :: contents) data = 0 := by
  simp [offsetIn]

theorem offsetIn_cons_of_ne {contents : List (List UInt8)} {first data : List UInt8}
    (different : first ≠ data) :
    offsetIn (first :: contents) data = first.length + offsetIn contents data := by
  simp [offsetIn, different]

theorem offsetIn_append {contents : List (List UInt8)} {data : List UInt8}
    (member : data ∈ contents) (others : List (List UInt8)) :
    offsetIn (contents ++ others) data = offsetIn contents data := by
  induction contents with
  | nil => cases member
  | cons first contents ih =>
      by_cases same : first = data
      · subst same
        rw [List.cons_append, offsetIn_cons_self, offsetIn_cons_self]
      · have later : data ∈ contents := (List.mem_cons.mp member).resolve_left (Ne.symm same)
        rw [List.cons_append, offsetIn_cons_of_ne same, offsetIn_cons_of_ne same, ih later]

theorem offsetIn_concat {contents : List (List UInt8)} {data : List UInt8}
    (fresh : data ∉ contents) : offsetIn (contents ++ [data]) data = contents.flatten.length := by
  induction contents with
  | nil => exact offsetIn_cons_self [] data
  | cons first contents ih =>
      have different : first ≠ data := fun same => fresh (by simp [same])
      rw [List.cons_append, offsetIn_cons_of_ne different,
        ih fun later => fresh (List.mem_cons_of_mem _ later), List.flatten_cons, List.length_append]

/-- The data stands at its offset. -/
theorem take_drop_flatten {contents : List (List UInt8)} {data : List UInt8}
    (member : data ∈ contents) :
    (contents.flatten.drop (offsetIn contents data)).take data.length = data := by
  induction contents with
  | nil => cases member
  | cons first contents ih =>
      by_cases same : first = data
      · subst same
        rw [offsetIn_cons_self, List.drop_zero, List.flatten_cons, List.take_left]
      · have later : data ∈ contents := (List.mem_cons.mp member).resolve_left (Ne.symm same)
        rw [offsetIn_cons_of_ne same, List.flatten_cons, ← List.drop_drop, List.drop_left,
          ih later]

theorem offsetIn_le (contents : List (List UInt8)) (data : List UInt8) :
    offsetIn contents data ≤ contents.flatten.length := by
  have prefixOf := (List.takeWhile_prefix (l := contents) (p := (· != data)))
  obtain ⟨rest, split⟩ := prefixOf
  rw [offsetIn]
  nth_rewrite 2 [← split]
  rw [List.flatten_append, List.length_append]
  omega

/-! ## Packing -/

/-- The entry of a resource among the contents. -/
def entryOf (contents : List (List UInt8)) (resource : Nat × Option (List UInt8)) : Entry :=
  ⟨resource.1, offsetIn contents (contentsOf resource), (contentsOf resource).length,
    crc32 (contentsOf resource)⟩

def Entry.encode (entry : Entry) : List UInt8 :=
  encodeL entry.resid ++ encodeL entry.offset ++ encodeL entry.size ++ encodeL entry.crc

/-- The values of an entry have 32 bits. -/
structure Entry.Fits (entry : Entry) : Prop where
  resid : entry.resid < 4294967296
  offset : entry.offset < 4294967296
  size : entry.size < 4294967296
  crc : entry.crc < 4294967296

theorem packEntry_eq {entry : Entry} (fits : entry.Fits) :
    packEntry entry.resid entry.offset entry.size entry.crc = .ok entry.encode := by
  simp only [packEntry, packL_natCast]
  rw [if_pos fits.resid, if_pos fits.offset, if_pos fits.size, if_pos fits.crc]
  rfl

theorem unpackEntry_encode {entry : Entry} (fits : entry.Fits) :
    unpackEntry entry.encode = .ok entry := by
  change Except.ok (⟨u32 _ _ _ _, u32 _ _ _ _, u32 _ _ _ _, u32 _ _ _ _⟩ : Entry) = _
  rw [u32_encodeL fits.resid, u32_encodeL fits.offset, u32_encodeL fits.size, u32_encodeL fits.crc]

theorem entryOf_fits {contents : List (List UInt8)} {resource : Nat × Option (List UInt8)}
    (resid : resource.1 < 4294967296) (offset : contents.flatten.length < 4294967296)
    (size : (contentsOf resource).length < 4294967296) : (entryOf contents resource).Fits where
  resid := resid
  offset := Nat.lt_of_le_of_lt (offsetIn_le contents (contentsOf resource)) offset
  size := size
  crc := crc32_lt (contentsOf resource)

/-- The state after some resources are added. -/
structure Packed (done : List (Nat × Option (List UInt8))) (contents : List (List UInt8))
    (state : PackState) : Prop where
  nodup : contents.Nodup
  mem_iff : ∀ data, data ∈ contents ↔ data ∈ done.map contentsOf
  bounded : contents.flatten.length ≤ (done.map fun resource => (contentsOf resource).length).sum
  data_eq : state.resourceData = contents.flatten
  lookup_eq : ∀ data, state.dataOffsetMap.lookup data =
    if data ∈ contents then some (offsetIn contents data) else none
  table_eq : state.resourceTable = done.flatMap fun resource => (entryOf contents resource).encode

namespace Packed

variable {done : List (Nat × Option (List UInt8))} {contents : List (List UInt8)}
  {state : PackState}

theorem start : Packed [] [] ⟨[], [], []⟩ where
  nodup := List.nodup_nil
  mem_iff := by simp
  bounded := Nat.le_refl 0
  data_eq := rfl
  lookup_eq := by simp
  table_eq := rfl

/-- New data is appended to the contents, known data keeps its offset. -/
theorem place (packed : Packed done contents state) (data : List UInt8) :
    ∃ contents' state', state.place data = (offsetIn contents' data, state') ∧
      contents'.Nodup ∧ (∀ other, other ∈ contents' ↔ other ∈ contents ∨ other = data) ∧
      (∀ other ∈ contents, offsetIn contents' other = offsetIn contents other) ∧
      contents'.flatten.length ≤ contents.flatten.length + data.length ∧
      state'.resourceData = contents'.flatten ∧
      (∀ other, state'.dataOffsetMap.lookup other =
        if other ∈ contents' then some (offsetIn contents' other) else none) ∧
      state'.resourceTable = state.resourceTable := by
  by_cases known : data ∈ contents
  · refine ⟨contents, state, ?_, packed.nodup, ?_, fun _ _ => rfl, by omega, packed.data_eq,
      packed.lookup_eq, rfl⟩
    · rw [PackState.place, packed.lookup_eq, if_pos known]
    · intro other
      constructor
      · exact Or.inl
      · rintro (member | rfl)
        · exact member
        · exact known
  · have offset := offsetIn_concat known
    refine ⟨contents ++ [data], ⟨state.dataOffsetMap ++ [(data, state.resourceData.length)],
      state.resourceTable, state.resourceData ++ data⟩, ?_, ?_, by simp,
      fun other member => offsetIn_append member [data], by simp, ?_, ?_, rfl⟩
    · rw [PackState.place, packed.lookup_eq, if_neg known, offset, packed.data_eq]
    · rw [List.nodup_append]
      refine ⟨packed.nodup, List.nodup_singleton data, ?_⟩
      rintro other member _ single rfl
      exact known (List.mem_singleton.mp single ▸ member)
    · rw [packed.data_eq, List.flatten_append, List.flatten_singleton]
    · intro other
      rw [List.lookup_append, packed.lookup_eq, packed.data_eq]
      by_cases member : other ∈ contents
      · rw [if_pos member, if_pos (by simp [member]), offsetIn_append member]
        rfl
      · by_cases same : other = data
        · subst same
          rw [if_neg member, if_pos (by simp), offset]
          simp
        · rw [if_neg member, if_neg (by simp [member, same])]
          simp [same]

/-- One more resource. -/
theorem addResource_ok (packed : Packed done contents state) {resource : Nat × Option (List UInt8)}
    (resid : resource.1 < 4294967296)
    (total : ((done ++ [resource]).map fun resource => (contentsOf resource).length).sum <
      4294967296) :
    ∃ contents' state', addResource state resource = .ok state' ∧
      Packed (done ++ [resource]) contents' state' := by
  obtain ⟨contents', placed, placeEq, nodup, mem_iff, offsets, length, dataEq, lookupEq, tableEq⟩ :=
    packed.place (contentsOf resource)
  have bounded := packed.bounded
  rw [List.map_append, List.sum_append, List.map_singleton, List.sum_singleton] at total
  have fits := entryOf_fits resid (show contents'.flatten.length < 4294967296 by omega) (by omega)
  refine ⟨contents', { placed with resourceTable := placed.resourceTable ++
    (entryOf contents' resource).encode }, ?_, nodup, ?_, ?_, dataEq, lookupEq, ?_⟩
  · have entry := packEntry_eq fits
    simp only [entryOf] at entry
    simp only [addResource, placeEq, entry]
    rfl
  · intro data
    rw [mem_iff, packed.mem_iff, List.map_append, List.mem_append, List.map_singleton,
      List.mem_singleton]
  · rw [List.map_append, List.sum_append, List.map_singleton, List.sum_singleton]
    omega
  · have same : done.flatMap (fun resource => (entryOf contents' resource).encode) =
        done.flatMap fun resource => (entryOf contents resource).encode := by
      apply List.flatMap_congr
      intro other member
      rw [entryOf, entryOf, offsets _ ((packed.mem_iff _).mpr (List.mem_map_of_mem member))]
    rw [List.flatMap_append, same, ← packed.table_eq, tableEq, List.flatMap_singleton]

/-- All resources. -/
theorem foldlM_addResource (packed : Packed done contents state)
    {later : List (Nat × Option (List UInt8))} (ids : ∀ resource ∈ later, resource.1 < 4294967296)
    (total : ((done ++ later).map fun resource => (contentsOf resource).length).sum < 4294967296) :
    ∃ contents' state', later.foldlM addResource state = .ok state' ∧
      Packed (done ++ later) contents' state' := by
  induction later generalizing done contents state with
  | nil => exact ⟨contents, state, rfl, by simpa using packed⟩
  | cons resource later ih =>
      have split : done ++ resource :: later = (done ++ [resource]) ++ later := by simp
      rw [split] at total ⊢
      have here : ((done ++ [resource]).map fun resource => (contentsOf resource).length).sum <
          4294967296 := by
        rw [List.map_append, List.sum_append] at total
        omega
      obtain ⟨contents', state', step, packed'⟩ :=
        packed.addResource_ok (ids resource (by simp)) here
      obtain ⟨final, finalState, run, finalPacked⟩ :=
        ih packed' (fun other member => ids other (by simp [member])) total
      refine ⟨final, finalState, ?_, finalPacked⟩
      rw [List.foldlM_cons, step]
      exact run

end Packed

/-! ## Unpacking -/

theorem sortResources_perm (resmap : List (Nat × Option (List UInt8))) :
    (sortResources resmap).Perm resmap :=
  List.perm_insertionSort _ _

/-- Distinct ids are in increasing order. -/
theorem sortResources_pairwise {resmap : List (Nat × Option (List UInt8))}
    (distinct : (resmap.map Prod.fst).Nodup) :
    ((sortResources resmap).map Prod.fst).Pairwise (· < ·) := by
  have total : Std.Total fun a b : Nat × Option (List UInt8) => a.1 ≤ b.1 :=
    ⟨fun a b => Nat.le_total a.1 b.1⟩
  have trans : IsTrans (Nat × Option (List UInt8)) fun a b => a.1 ≤ b.1 :=
    ⟨fun _ _ _ first second => Nat.le_trans first second⟩
  have sorted := List.pairwise_insertionSort
    (fun a b : Nat × Option (List UInt8) => a.1 ≤ b.1) resmap
  have nodup : ((sortResources resmap).map Prod.fst).Nodup :=
    ((sortResources_perm resmap).map _).nodup_iff.mpr distinct
  have le : ((sortResources resmap).map Prod.fst).Pairwise (· ≤ ·) := List.pairwise_map.mpr sorted
  exact (le.and nodup).imp fun ⟨less, different⟩ => Nat.lt_of_le_of_ne less different

/-- The layout of a pack with a table of a limited size. -/
def pbpackFile (limit : Nat) (entries : List Entry) (contents : List (List UInt8)) : List UInt8 :=
  encodeL entries.length ++ encodeL (crc32 contents.flatten) ++ encodeL 0 ++
    (entries.flatMap Entry.encode ++ List.replicate ((limit - entries.length) * 16) 0) ++
    contents.flatten

theorem Entry.length_encode (entry : Entry) : entry.encode.length = 16 := rfl

/-- The table has its fixed size. -/
theorem length_table {limit : Nat} {entries : List Entry} (few : entries.length ≤ limit) :
    (entries.flatMap Entry.encode ++
      List.replicate ((limit - entries.length) * 16) (0 : UInt8)).length = limit * 16 := by
  rw [List.length_append, List.length_replicate,
    length_flatMap_uniform (fun entry _ => entry.length_encode)]
  omega

theorem drop_header (limit : Nat) (entries : List Entry) (contents : List (List UInt8)) :
    (pbpackFile limit entries contents).drop offsetTableOffset =
      (entries.flatMap Entry.encode ++ List.replicate ((limit - entries.length) * 16) 0) ++
        contents.flatten := by
  rw [pbpackFile, List.append_assoc]
  rfl

theorem drop_table {limit : Nat} {entries : List Entry} (few : entries.length ≤ limit)
    (contents : List (List UInt8)) :
    (pbpackFile limit entries contents).drop (offsetTableOffset + limit * 16) =
      contents.flatten := by
  rw [← List.drop_drop, drop_header, List.drop_left' (length_table few)]

/-- The table is read back. -/
theorem readTable_pbpackFile {limit : Nat} {entries : List Entry}
    (few : entries.length < 4294967296)
    (fits : ∀ entry ∈ entries, entry.Fits) (contents : List (List UInt8)) :
    readTable (pbpackFile limit entries contents) = .ok entries := by
  have count : unpackCount (slice (pbpackFile limit entries contents) 0 4) =
      .ok entries.length := by
    change Except.ok (u32 _ _ _ _) = _
    rw [u32_encodeL few]
  rw [readTable, count]
  apply mapM_range
  intro position entry here
  rw [slice_eq_take_drop, ← List.drop_drop, drop_header, List.append_assoc,
    take_drop_flatMap (fun entry _ => entry.length_encode) here]
  exact unpackEntry_encode (fits entry (List.mem_of_getElem? here))

theorem maxResources_lt : maxResources < 4294967296 := by
  decide

/-- Every resource is read back. -/
theorem unpackResources_pbpackFile {resources : List (Nat × Option (List UInt8))}
    {contents : List (List UInt8)} (few : resources.length ≤ maxResources)
    (fits : ∀ resource ∈ resources, (entryOf contents resource).Fits)
    (stored : ∀ resource ∈ resources, contentsOf resource ∈ contents) :
    unpackResources (pbpackFile maxResources (resources.map (entryOf contents)) contents) =
      .ok (resources.map fun resource => (resourceName resource.1, contentsOf resource)) := by
  have few' : (resources.map (entryOf contents)).length ≤ maxResources := by
    rw [List.length_map]
    exact few
  have entriesFit : ∀ entry ∈ resources.map (entryOf contents), entry.Fits := by
    intro entry member
    obtain ⟨resource, inResources, rfl⟩ := List.mem_map.mp member
    exact fits resource inResources
  have table := @readTable_pbpackFile maxResources _ (lt_of_le_of_lt few' maxResources_lt)
    entriesFit contents
  simp only [unpackResources, table, bind, Except.bind]
  rw [List.map_map]
  refine congrArg Except.ok (List.map_congr_left fun resource member => ?_)
  simp only [Function.comp_apply, entryOf]
  rw [slice_eq_take_drop, ← List.drop_drop, drop_table few',
    take_drop_flatten (stored resource member)]

theorem flatMap_zeros (count : Nat) :
    ((List.range count).flatMap fun _ => List.replicate 16 (0 : UInt8)) =
      List.replicate (count * 16) 0 := by
  induction count with
  | zero => rfl
  | succ count ih =>
      rw [List.range_succ, List.flatMap_append, ih, List.flatMap_singleton,
        List.replicate_append_replicate, Nat.succ_mul]

/-- The pack that is written from the state of the loop. -/
theorem packResources_eq {resmap : List (Nat × Option (List UInt8))} {contents : List (List UInt8)}
    {state : PackState} (run : (sortResources resmap).foldlM addResource ⟨[], [], []⟩ = .ok state)
    (packed : Packed (sortResources resmap) contents state) {limit : Nat}
    (limitSmall : limit < 4294967296) :
    packResources resmap limit =
      if resmap.length ≤ limit then
        .ok (pbpackFile limit ((sortResources resmap).map (entryOf contents)) contents)
      else .error .assertionError := by
  have lengthEq : (sortResources resmap).length = resmap.length :=
    (sortResources_perm resmap).length_eq
  have entries : ((sortResources resmap).map (entryOf contents)).length = resmap.length := by
    rw [List.length_map, lengthEq]
  have tableEq : state.resourceTable = ((sortResources resmap).map (entryOf contents)).flatMap
      Entry.encode := by
    rw [packed.table_eq, List.flatMap_map]
  have step {α β : Type} (value : α) (rest : α → Except PyError β) :
      (Except.ok value >>= rest) = rest value := rfl
  rw [packResources, run, step, tableEq, flatMap_zeros, lengthEq]
  by_cases few : resmap.length ≤ limit
  · have table := length_table (show _ ≤ limit by rw [entries]; exact few)
    have small : resmap.length < 4294967296 := by omega
    have zero : packL 0 = .ok (encodeL 0) := (packL_natCast 0).trans (if_pos (by norm_num))
    rw [entries] at table
    rw [if_pos table, if_pos few, packL_natCast, if_pos small, step, packL_natCast,
      if_pos (crc32_lt state.resourceData), step, zero, step, packed.data_eq, pbpackFile, entries]
  · have long : ((((sortResources resmap).map (entryOf contents)).flatMap Entry.encode) ++
        List.replicate ((limit - resmap.length) * 16) 0).length ≠ limit * 16 := by
      rw [List.length_append, List.length_replicate,
        length_flatMap_uniform (fun entry _ => entry.length_encode), entries]
      omega
    rw [if_neg long, if_neg few]

/-- Packing fails with too many resources only.  Otherwise the data is the distinct contents, each
of them once, the table is in the order of the ids and has one offset for equal contents, and
unpacking gives every resource back. -/
theorem packResources_roundTrip {resmap : List (Nat × Option (List UInt8))}
    (distinct : (resmap.map Prod.fst).Nodup) (ids : ∀ resource ∈ resmap, resource.1 < 2 ^ 32)
    (total : (resmap.map fun resource => (contentsOf resource).length).sum < 2 ^ 32) :
    (maxResources < resmap.length ∧
        packResources resmap maxResources = .error .assertionError) ∨
      resmap.length ≤ maxResources ∧ ∃ (pbpack : List UInt8)
          (resources : List (Nat × Option (List UInt8))) (contents : List (List UInt8))
          (offsetOf : List UInt8 → Nat),
        packResources resmap maxResources = .ok pbpack ∧
        resources.Perm resmap ∧ (resources.map Prod.fst).Pairwise (· < ·) ∧
        unpackResources pbpack =
          .ok (resources.map fun resource => (resourceName resource.1, contentsOf resource)) ∧
        (resources.map fun resource => resourceName resource.1).Nodup ∧
        readTable pbpack = .ok (resources.map fun resource => ⟨resource.1,
          offsetOf (contentsOf resource), (contentsOf resource).length,
          crc32 (contentsOf resource)⟩) ∧
        pbpack.drop (offsetTableOffset + maxResources * 16) = contents.flatten ∧
        contents.Nodup ∧ ∀ data, data ∈ contents ↔ data ∈ resmap.map contentsOf := by
  have perm := sortResources_perm resmap
  have sorted := sortResources_pairwise distinct
  have idsSorted : ∀ resource ∈ sortResources resmap, resource.1 < 4294967296 :=
    fun resource member => ids resource (perm.mem_iff.mp member)
  have totalSorted : ((sortResources resmap).map fun resource => (contentsOf resource).length).sum <
      4294967296 := by
    rw [(perm.map _).sum_eq]
    exact total
  obtain ⟨contents, state, run, packed⟩ := Packed.start.foldlM_addResource idsSorted totalSorted
  rw [List.nil_append] at packed
  have packEq := packResources_eq run packed maxResources_lt
  have sizes : contents.flatten.length < 4294967296 :=
    Nat.lt_of_le_of_lt packed.bounded totalSorted
  have stored : ∀ resource ∈ sortResources resmap, contentsOf resource ∈ contents :=
    fun resource member => (packed.mem_iff _).mpr (List.mem_map_of_mem member)
  have fits : ∀ resource ∈ sortResources resmap, (entryOf contents resource).Fits := by
    intro resource member
    have size := List.single_le_sum (by simp) _ (List.mem_map_of_mem
      (f := fun resource => (contentsOf resource).length) member)
    exact entryOf_fits (idsSorted resource member) sizes (Nat.lt_of_le_of_lt size totalSorted)
  by_cases few : resmap.length ≤ maxResources
  · rw [if_pos few] at packEq
    have fewSorted : (sortResources resmap).length ≤ maxResources := by
      rw [perm.length_eq]
      exact few
    have fewEntries : ((sortResources resmap).map (entryOf contents)).length ≤ maxResources := by
      rw [List.length_map]
      exact fewSorted
    have names : ((sortResources resmap).map fun resource => resourceName resource.1).Nodup := by
      have idsNodup : ((sortResources resmap).map Prod.fst).Nodup :=
        (perm.map _).nodup_iff.mpr distinct
      have mapped := idsNodup.map resourceName_injective
      rw [List.map_map] at mapped
      exact mapped
    refine Or.inr ⟨few, _, sortResources resmap, contents, offsetIn contents, packEq, perm, sorted,
      unpackResources_pbpackFile fewSorted fits stored, names,
      readTable_pbpackFile (lt_of_le_of_lt fewEntries maxResources_lt) ?_ contents,
      drop_table fewEntries contents, packed.nodup, ?_⟩
    · intro entry member
      obtain ⟨resource, inResources, rfl⟩ := List.mem_map.mp member
      exact fits resource inResources
    · intro data
      rw [packed.mem_iff, (perm.map contentsOf).mem_iff]
  · rw [if_neg few] at packEq
    exact Or.inl ⟨by omega, packEq⟩

/-- Equal contents, an empty file, and a resource without a file. -/
def sampleResmap : List (Nat × Option (List UInt8)) :=
  [(2, some [1, 2]), (0xFFFFFFFF, some []), (1, none), (3, some [1, 2])]

theorem packResources_roundTrip_sample :
    ∃ (pbpack : List UInt8) (resources : List (Nat × Option (List UInt8))),
      packResources sampleResmap maxResources = .ok pbpack ∧ resources.Perm sampleResmap ∧
      unpackResources pbpack =
        .ok (resources.map fun resource => (resourceName resource.1, contentsOf resource)) := by
  have packed := @packResources_roundTrip sampleResmap (by decide) (by decide) (by decide)
  rcases packed with ⟨many, -⟩ | ⟨-, pbpack, resources, -, -, run, perm, -, unpacked, -⟩
  · exact absurd many (by decide)
  · exact ⟨pbpack, resources, run, perm, unpacked⟩

end ResourcePack

end Elbbep
