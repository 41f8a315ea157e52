import Elbbep.PatchTools

/-!
# The jump table

`_build_symbol_table` looks for the jump table of the firmware by its obsolete slots, which
are zero.  The pattern is accumulated from the gaps between the slots that are used, but the
first gap comes out one slot too short, so that the table is found one slot too late unless
its first slot is used.
-/

namespace Elbbep

namespace PatchTools

open PythonStruct

/-! ## Matching -/

theorem matchesAt_literal_cons (byte : UInt8) (pattern : List PatternByte) (bytes : List UInt8) :
    matchesAt (.literal byte :: pattern) bytes ↔
      bytes[0]? = some byte ∧ matchesAt pattern (bytes.drop 1) := by
  cases bytes with
  | nil => simp [matchesAt]
  | cons other bytes =>
      simp only [matchesAt, Bool.and_eq_true, beq_iff_eq, List.getElem?_cons_zero,
        Option.some.injEq, List.drop_succ_cons, List.drop_zero]
      exact and_congr_left fun _ => eq_comm

theorem matchesAt_zeros (count : Nat) (pattern : List PatternByte) (bytes : List UInt8) :
    matchesAt (List.replicate count (.literal 0) ++ pattern) bytes ↔
      (∀ i < count, bytes[i]? = some 0) ∧ matchesAt pattern (bytes.drop count) := by
  induction count generalizing bytes with
  | zero => simp
  | succ count ih =>
      rw [List.replicate_succ, List.cons_append, matchesAt_literal_cons, ih, List.drop_drop,
        Nat.add_comm 1 count, ← and_assoc]
      refine and_congr_left fun _ => ?_
      constructor
      · rintro ⟨first, rest⟩ i below
        cases i with
        | zero => exact first
        | succ i => simpa [Nat.add_comm] using rest i (by omega)
      · intro zeros
        refine ⟨zeros 0 (by omega), fun i below => ?_⟩
        simpa [Nat.add_comm] using zeros (i + 1) (by omega)

theorem matchesAt_pointer (pattern : List PatternByte) (bytes : List UInt8) :
    matchesAt (pointerPattern ++ pattern) bytes ↔
      bytes[3]? = some 8 ∧ matchesAt pattern (bytes.drop 4) := by
  rcases bytes with _ | ⟨b0, _ | ⟨b1, _ | ⟨b2, bytes⟩⟩⟩
  · simp [pointerPattern, matchesAt]
  · simp [pointerPattern, matchesAt]
  · simp [pointerPattern, matchesAt]
  · have three : matchesAt (pointerPattern ++ pattern) (b0 :: b1 :: b2 :: bytes) ↔
        matchesAt (.literal 8 :: pattern) bytes := Iff.rfl
    rw [three, matchesAt_literal_cons]
    simp

theorem findPattern_eq_some_iff {pattern : List PatternByte} (nonempty : pattern ≠ [])
    {bytes : List UInt8} {start : Nat} :
    findPattern pattern bytes = some start ↔
      matchesAt pattern (bytes.drop start) ∧
        ∀ earlier < start, ¬ matchesAt pattern (bytes.drop earlier) := by
  have inside (fits : matchesAt pattern (bytes.drop start)) : start < bytes.length + 1 := by
    by_contra outside
    rw [List.drop_eq_nil_of_le (by omega)] at fits
    cases pattern with
    | nil => exact nonempty rfl
    | cons first pattern => cases fits
  rw [findPattern, List.find?_range_eq_some]
  simp only [List.mem_range, Bool.not_eq_true', Bool.not_eq_true]
  constructor
  · rintro ⟨fits, -, before⟩
    exact ⟨fits, before⟩
  · rintro ⟨fits, before⟩
    exact ⟨fits, inside fits, before⟩

/-! ## The table -/

/-- The slots of a jump table are pointers, and the words between them are zero. -/
structure TableFits (image : List UInt8) (offsets : List Nat) (base : Nat) : Prop where
  pointer : ∀ offset ∈ offsets, image[base + offset + 3]? = some 8
  zero : ∀ i, (∃ largest ∈ offsets, i < largest) →
    (∀ offset ∈ offsets, i < offset ∨ offset + 4 ≤ i) → image[base + i]? = some 0

theorem jumpTablePattern_ne_nil (last idx : Nat) (offsets : List Nat) :
    jumpTablePattern last (idx :: offsets) ≠ [] := by
  simp [jumpTablePattern, pointerPattern]

/-- The slots behind the last one are found by the pattern. -/
theorem matchesAt_jumpTablePattern {image : List UInt8} {base last : Nat} {offsets : List Nat}
    (spaced : (last :: offsets).Pairwise fun a b => a + 4 ≤ b) :
    matchesAt (jumpTablePattern last offsets) (image.drop (base + last + 4)) ↔
      (∀ offset ∈ offsets, image[base + offset + 3]? = some 8) ∧
        ∀ i, last + 4 ≤ i → (∃ largest ∈ offsets, i < largest) →
          (∀ offset ∈ offsets, i < offset ∨ offset + 4 ≤ i) → image[base + i]? = some 0 := by
  induction offsets generalizing last with
  | nil => simp [jumpTablePattern, matchesAt]
  | cons idx offsets ih =>
      obtain ⟨later, spacedRest⟩ := List.pairwise_cons.mp spaced
      have gap := later idx (by simp)
      have dropped : base + last + 4 + (idx - last - 4) + 4 = base + idx + 4 := by omega
      rw [jumpTablePattern, List.append_assoc, matchesAt_zeros, matchesAt_pointer, List.drop_drop,
        List.drop_drop, dropped, ih spacedRest]
      have here : (image.drop (base + last + 4 + (idx - last - 4)))[3]? =
          image[base + idx + 3]? := by
        rw [List.getElem?_drop]
        congr 1
        omega
      rw [here]
      constructor
      · rintro ⟨zeros, pointer, pointers, gaps⟩
        refine ⟨by simpa using ⟨pointer, pointers⟩, ?_⟩
        intro i above below clear
        by_cases first : i < idx
        · have zero := zeros (i - last - 4) (by omega)
          rw [List.getElem?_drop] at zero
          rw [← zero]
          congr 1
          omega
        · obtain ⟨largest, member, less⟩ := below
          have notFirst : largest ∈ offsets := by
            rcases List.mem_cons.mp member with rfl | rest
            · exact absurd less first
            · exact rest
          have behind : idx + 4 ≤ i := (clear idx (by simp)).resolve_left first
          exact gaps i behind ⟨largest, notFirst, less⟩ fun offset inRest =>
            clear offset (by simp [inRest])
      · rintro ⟨pointers, gaps⟩
        refine ⟨fun i below => ?_, pointers idx (by simp), fun offset member =>
          pointers offset (by simp [member]), fun i above below clear => ?_⟩
        · have zero := gaps (last + 4 + i) (by omega) ⟨idx, by simp, by omega⟩
            fun offset member => by
            rcases List.mem_cons.mp member with rfl | rest
            · exact Or.inl (by omega)
            · have after := (List.pairwise_cons.mp spacedRest).1 offset rest
              exact Or.inl (by omega)
          rw [List.getElem?_drop, ← zero]
          congr 1
          omega
        · obtain ⟨largest, member, less⟩ := below
          refine gaps i (by omega) ⟨largest, by simp [member], less⟩ fun offset inOffsets => ?_
          rcases List.mem_cons.mp inOffsets with rfl | rest
          · exact Or.inr above
          · exact clear offset rest

theorem TableFits.congr {image : List UInt8} {offsets others : List Nat} {base : Nat}
    (same : ∀ offset, offset ∈ offsets ↔ offset ∈ others) :
    TableFits image offsets base ↔ TableFits image others base := by
  constructor
  · rintro ⟨pointer, zero⟩
    simp only [same] at pointer zero
    exact ⟨pointer, zero⟩
  · rintro ⟨pointer, zero⟩
    simp only [← same] at pointer zero
    exact ⟨pointer, zero⟩

/-- With a first slot that is used, the pattern is that of the table. -/
theorem matchesAt_table {image : List UInt8} {base : Nat} {offsets : List Nat}
    (spaced : (0 :: offsets).Pairwise fun a b => a + 4 ≤ b) :
    matchesAt (jumpTablePattern 0 (0 :: offsets)) (image.drop base) ↔
      TableFits image (0 :: offsets) base := by
  have first : jumpTablePattern 0 (0 :: offsets) = pointerPattern ++ jumpTablePattern 0 offsets :=
    rfl
  have later := @matchesAt_jumpTablePattern image base 0 offsets spaced
  rw [first, matchesAt_pointer, List.drop_drop, List.getElem?_drop]
  rw [Nat.add_zero] at later
  rw [later]
  constructor
  · rintro ⟨pointer, pointers, gaps⟩
    refine ⟨by simpa using ⟨pointer, pointers⟩, ?_⟩
    rintro i ⟨largest, member, less⟩ clear
    have behind := clear 0 (by simp)
    have notFirst : largest ∈ offsets := (List.mem_cons.mp member).resolve_left (by omega)
    exact gaps i (by omega) ⟨largest, notFirst, less⟩ fun offset inOffsets =>
      clear offset (by simp [inOffsets])
  · rintro ⟨pointers, gaps⟩
    refine ⟨pointers 0 (by simp), fun offset member => pointers offset (by simp [member]), ?_⟩
    rintro i above ⟨largest, member, less⟩ clear
    refine gaps i ⟨largest, by simp [member], less⟩ fun offset inOffsets => ?_
    rcases List.mem_cons.mp inOffsets with rfl | rest
    · exact Or.inr (by omega)
    · exact clear offset rest

/-- Aligned offsets in increasing order. -/
theorem pairwise_sorted {offsets : List Nat} (distinct : offsets.Nodup)
    (aligned : ∀ offset ∈ offsets, offset % 4 = 0) :
    (offsets.insertionSort (· ≤ ·)).Pairwise fun a b => a + 4 ≤ b := by
  have perm := List.perm_insertionSort (· ≤ ·) offsets
  have sorted := List.pairwise_insertionSort (· ≤ ·) offsets
  have nodup := perm.nodup_iff.mpr distinct
  refine (sorted.and nodup).imp_of_mem ?_
  rintro a b aMember bMember ⟨le, ne⟩
  have aAligned := aligned a (perm.mem_iff.mp aMember)
  have bAligned := aligned b (perm.mem_iff.mp bMember)
  omega

/-- The firmware has a table at a base, and the table fits nowhere before. -/
structure JumpTableAt (image : List UInt8) (offsets : List Nat) (base : Nat) : Prop extends
    TableFits image offsets base where
  odd : ∀ offset ∈ offsets, ∃ byte, image[base + offset]? = some byte ∧ byte.toNat % 2 = 1
  first : ∀ earlier < base, ¬ TableFits image offsets earlier

/-- The symbol table has for every function the address in its slot, with bit 0 cleared. -/
structure SymbolsRight (target : Target) (image : List UInt8) (base : Nat)
    (funcOffsetMap : List (String × Nat)) (symtab : List (String × Int)) : Prop where
  names : symtab.map Prod.fst = funcOffsetMap.map Prod.fst
  address : ∀ entry ∈ funcOffsetMap, ∃ word,
    unpackI (slice image (base + entry.2) (base + entry.2 + 4)) = .ok word ∧
      (entry.1, ((word - word % 2 : Nat) : Int) - target.microcodeOffset) ∈ symtab

theorem JumpTableAt.slot {image : List UInt8} {offsets : List Nat} {base : Nat}
    (table : JumpTableAt image offsets base) {offset : Nat} (member : offset ∈ offsets) :
    ∃ word, unpackI (slice image (base + offset) (base + offset + 4)) = .ok word ∧
      word % 2 = 1 := by
  obtain ⟨byte, low, byteOdd⟩ := table.odd offset member
  have top := table.pointer offset member
  rw [slice_eq_take_drop]
  have dropped (i : Nat) : (image.drop (base + offset))[i]? = image[base + offset + i]? :=
    List.getElem?_drop
  rw [← dropped 3] at top
  rw [← Nat.add_zero (base + offset), ← dropped 0] at low
  rcases eq : image.drop (base + offset) with _ | ⟨b0, _ | ⟨b1, _ | ⟨b2, _ | ⟨b3, rest⟩⟩⟩⟩
  · simp [eq] at top
  · simp [eq] at top
  · simp [eq] at top
  · simp [eq] at top
  · rw [eq] at low
    obtain rfl := Option.some.inj low
    refine ⟨u32 b0 b1 b2 b3, rfl, ?_⟩
    rw [u32]
    omega

theorem readJumpTable_ok {target : Target} {image : List UInt8} {base offset word : Nat}
    (slot : unpackI (slice image (base + offset) (base + offset + 4)) = .ok word)
    (wordOdd : word % 2 = 1) :
    readJumpTable target image base offset =
      .ok (((word - word % 2 : Nat) : Int) - target.microcodeOffset) := by
  simp only [readJumpTable, slot, bind, Except.bind]
  rw [if_pos wordOdd, wordOdd]

/-- Only an odd word is an address. -/
theorem readJumpTable_low {target : Target} {image : List UInt8} {base offset : Nat} {address : Int}
    (run : readJumpTable target image base offset = .ok address) :
    ∃ byte, image[base + offset]? = some byte ∧ byte.toNat % 2 = 1 := by
  simp only [readJumpTable] at run
  obtain ⟨word, slot, run⟩ := bind_ok run
  have wordOdd : word % 2 = 1 := by
    by_contra even
    rw [if_neg even] at run
    cases run
  rw [slice_eq_take_drop] at slot
  have low : image[base + offset]? = ((image.drop (base + offset)).take 4)[0]? := by
    rw [List.getElem?_take_of_lt (by omega), List.getElem?_drop, Nat.add_zero]
  rw [low]
  rcases eq : (image.drop (base + offset)).take 4 with
    _ | ⟨b0, _ | ⟨b1, _ | ⟨b2, _ | ⟨b3, _ | ⟨b4, rest⟩⟩⟩⟩⟩ <;> rw [eq] at slot
  · cases slot
  · cases slot
  · cases slot
  · cases slot
  · obtain rfl := Except.ok.inj slot
    refine ⟨b0, rfl, ?_⟩
    rw [u32] at wordOdd
    omega
  · cases slot

/-- All slots are read when the base is right. -/
theorem mapM_readJumpTable {target : Target} {image : List UInt8} {base : Nat}
    {funcOffsetMap : List (String × Nat)}
    (slots : ∀ entry ∈ funcOffsetMap, ∃ word,
      unpackI (slice image (base + entry.2) (base + entry.2 + 4)) = .ok word ∧ word % 2 = 1) :
    ∃ symtab, (funcOffsetMap.mapM fun entry => do
        let fileRelAddr ← readJumpTable target image base entry.2
        .ok (entry.1, fileRelAddr)) = (.ok symtab : Except PyError _) ∧
      SymbolsRight target image base funcOffsetMap symtab := by
  induction funcOffsetMap with
  | nil => exact ⟨[], rfl, rfl, by simp⟩
  | cons entry funcOffsetMap ih =>
      obtain ⟨word, slot, wordOdd⟩ := slots entry (by simp)
      obtain ⟨symtab, run, right⟩ := ih fun other member => slots other (by simp [member])
      refine ⟨(entry.1, ((word - word % 2 : Nat) : Int) - target.microcodeOffset) :: symtab,
        ?_, ?_, ?_⟩
      · rw [List.mapM_cons, readJumpTable_ok slot wordOdd]
        simp only [bind, Except.bind] at run ⊢
        rw [run]
        rfl
      · rw [List.map_cons, List.map_cons, right.names]
      · intro other member
        rcases List.mem_cons.mp member with rfl | later
        · exact ⟨word, slot, by simp⟩
        · obtain ⟨otherWord, otherSlot, otherMember⟩ := right.address other later
          exact ⟨otherWord, otherSlot, List.mem_cons_of_mem _ otherMember⟩

/-- A table whose first slot is used is found at its base. -/
theorem buildSymbolTable_of_zero_mem {funcOffsetMap : List (String × Nat)}
    (distinct : (funcOffsetMap.map Prod.snd).Nodup)
    (aligned : ∀ offset ∈ funcOffsetMap.map Prod.snd, offset % 4 = 0)
    (zero : 0 ∈ funcOffsetMap.map Prod.snd) (target : Target) {image : List UInt8} {base : Nat}
    (table : JumpTableAt image (funcOffsetMap.map Prod.snd) base) :
    ∃ symtab, buildSymbolTable target image funcOffsetMap = .ok symtab ∧
      SymbolsRight target image base funcOffsetMap symtab := by
  have perm := List.perm_insertionSort (· ≤ ·) (funcOffsetMap.map Prod.snd)
  have spaced := pairwise_sorted distinct aligned
  have same {earlier : Nat} := @TableFits.congr image _ _ earlier fun _ => perm.mem_iff.symm
  obtain ⟨offsets, sortedEq⟩ : ∃ offsets,
      (funcOffsetMap.map Prod.snd).insertionSort (· ≤ ·) = 0 :: offsets := by
    have member := perm.mem_iff.mpr zero
    cases sorted : (funcOffsetMap.map Prod.snd).insertionSort (· ≤ ·) with
    | nil =>
        rw [sorted] at member
        cases member
    | cons first offsets =>
        rw [sorted] at member spaced
        rcases List.mem_cons.mp member with rfl | later
        · exact ⟨offsets, rfl⟩
        · have := (List.pairwise_cons.mp spaced).1 0 later
          omega
  rw [sortedEq] at spaced same
  have found : findPattern (jumpTablePattern 0
      ((funcOffsetMap.map Prod.snd).insertionSort (· ≤ ·))) image = some base := by
    rw [sortedEq, findPattern_eq_some_iff (jumpTablePattern_ne_nil 0 0 offsets),
      matchesAt_table spaced, ← same]
    refine ⟨table.toTableFits, fun earlier before => ?_⟩
    rw [matchesAt_table spaced, ← same]
    exact table.first earlier before
  obtain ⟨symtab, run, right⟩ := @mapM_readJumpTable target image base funcOffsetMap
    fun entry member => table.slot (List.mem_map_of_mem member)
  refine ⟨symtab, ?_, right⟩
  simp only [buildSymbolTable]
  rw [found]
  exact run

/-! ## An obsolete first slot -/

/-- A byte of an image with nothing but a jump table. -/
def tableByte (offsets : List Nat) (i : Nat) : UInt8 :=
  if i ∈ offsets then 1 else if 3 ≤ i ∧ i - 3 ∈ offsets then 8 else 0

/-- The table, and a word behind it. -/
def tableImage (offsets : List Nat) (largest : Nat) : List UInt8 :=
  (List.range (largest + 8)).map (tableByte offsets)

theorem getElem?_tableImage {offsets : List Nat} {largest i : Nat} (inside : i < largest + 8) :
    (tableImage offsets largest)[i]? = some (tableByte offsets i) := by
  rw [tableImage, List.getElem?_map, List.getElem?_range inside]
  rfl

theorem jumpTableAt_tableImage {offsets : List Nat} {largest : Nat}
    (aligned : ∀ offset ∈ offsets, offset % 4 = 0) (bound : ∀ offset ∈ offsets, offset ≤ largest) :
    JumpTableAt (tableImage offsets largest) offsets 0 where
  pointer := by
    intro offset member
    have small := bound offset member
    rw [Nat.zero_add, getElem?_tableImage (by omega), tableByte, if_neg, if_pos]
    · exact ⟨by omega, by simpa using member⟩
    · intro other
      have := aligned _ other
      have := aligned offset member
      omega
  zero := by
    rintro i ⟨larger, member, less⟩ clear
    have small := bound larger member
    rw [Nat.zero_add, getElem?_tableImage (by omega), tableByte, if_neg, if_neg]
    · rintro ⟨above, other⟩
      have := clear _ other
      omega
    · intro here
      have := clear i here
      omega
  odd := by
    intro offset member
    have small := bound offset member
    refine ⟨1, ?_, rfl⟩
    rw [Nat.zero_add, getElem?_tableImage (by omega), tableByte, if_pos member]
  first := fun earlier before => absurd before (Nat.not_lt_zero earlier)

/-- The first slot of the pattern is not before the first slot of the table, and the pattern has
one slot less before it. -/
theorem four_le_of_matchesAt {others offsets : List Nat} {first largest base : Nat}
    (aligned : ∀ offset ∈ others, offset % 4 = 0) (used : 0 ∉ others)
    (sorted : (first :: offsets).Pairwise (· ≤ ·)) (perm : (first :: offsets).Perm others)
    (fits : matchesAt (jumpTablePattern 0 (first :: offsets))
      ((tableImage others largest).drop base)) : 4 ≤ base := by
  have firstMember : first ∈ others := perm.mem_iff.mp (by simp)
  have firstAligned := aligned first firstMember
  have firstUsed : first ≠ 0 := fun zero => used (zero ▸ firstMember)
  rw [jumpTablePattern, List.append_assoc, matchesAt_zeros, matchesAt_pointer, List.drop_drop,
    List.getElem?_drop] at fits
  have pointer := fits.2.1
  have inside : base + (first - 0 - 4) + 3 < largest + 8 := by
    by_contra outside
    rw [List.getElem?_eq_none (by simp [tableImage]; omega)] at pointer
    cases pointer
  rw [getElem?_tableImage inside, Option.some.injEq, tableByte] at pointer
  split at pointer
  · cases pointer
  · split at pointer
    next slot =>
      have least : first ≤ base + (first - 0 - 4) + 3 - 3 := by
        rcases List.mem_cons.mp (perm.mem_iff.mpr slot.2) with here | later
        · omega
        · exact (List.pairwise_cons.mp sorted).1 _ later
      omega
    next => cases pointer

/-- The table of the image is found too late, and its last slot is not read. -/
theorem buildSymbolTable_tableImage {funcOffsetMap : List (String × Nat)}
    (aligned : ∀ offset ∈ funcOffsetMap.map Prod.snd, offset % 4 = 0)
    (used : 0 ∉ funcOffsetMap.map Prod.snd) {last : String × Nat} (inMap : last ∈ funcOffsetMap)
    (bound : ∀ offset ∈ funcOffsetMap.map Prod.snd, offset ≤ last.2) (target : Target)
    (symtab : List (String × Int)) :
    buildSymbolTable target (tableImage (funcOffsetMap.map Prod.snd) last.2) funcOffsetMap ≠
      .ok symtab := by
  have perm := List.perm_insertionSort (· ≤ ·) (funcOffsetMap.map Prod.snd)
  have sorted := List.pairwise_insertionSort (· ≤ ·) (funcOffsetMap.map Prod.snd)
  cases sortedEq : (funcOffsetMap.map Prod.snd).insertionSort (· ≤ ·) with
  | nil =>
      rw [sortedEq] at perm
      have := perm.mem_iff.mpr (List.mem_map_of_mem inMap)
      cases this
  | cons first offsets =>
      rw [sortedEq] at perm sorted
      intro run
      simp only [buildSymbolTable, sortedEq] at run
      cases found : findPattern (jumpTablePattern 0 (first :: offsets))
          (tableImage (funcOffsetMap.map Prod.snd) last.2) with
      | none =>
          rw [found] at run
          cases run
      | some base =>
          rw [found] at run
          have fits :=
            ((findPattern_eq_some_iff (jumpTablePattern_ne_nil 0 first offsets)).mp found).1
          have late := four_le_of_matchesAt aligned used sorted perm fits
          obtain ⟨i, inside, lastEq⟩ := List.getElem_of_mem inMap
          have slot := (List.forall₂_iff_get.mp (mapM_ok run)).2 i inside
            (by rw [← (mapM_ok run).length_eq]; exact inside)
          rw [List.get_eq_getElem, lastEq] at slot
          obtain ⟨address, read, -⟩ := bind_ok slot
          obtain ⟨byte, low, byteOdd⟩ := readJumpTable_low read
          have short : base + last.2 < last.2 + 8 := by
            by_contra beyond
            rw [List.getElem?_eq_none (by simp [tableImage]; omega)] at low
            cases low
          rw [getElem?_tableImage short, Option.some.injEq, tableByte, if_neg, if_neg] at low
          · subst low
            cases byteOdd
          · rintro ⟨-, other⟩
            have := bound _ other
            omega
          · intro other
            have := bound _ other
            omega

/-- The symbol table is right for every firmware with a table for these functions if and only if
the first slot of the table is used. -/
theorem buildSymbolTable_right_iff {funcOffsetMap : List (String × Nat)}
    (nonempty : funcOffsetMap ≠ []) (distinct : (funcOffsetMap.map Prod.snd).Nodup)
    (aligned : ∀ offset ∈ funcOffsetMap.map Prod.snd, offset % 4 = 0) :
    (∀ target image base, JumpTableAt image (funcOffsetMap.map Prod.snd) base →
      ∃ symtab, buildSymbolTable target image funcOffsetMap = .ok symtab ∧
        SymbolsRight target image base funcOffsetMap symtab) ↔
      0 ∈ funcOffsetMap.map Prod.snd := by
  constructor
  · intro right
    by_contra used
    obtain ⟨last, inMap, bound⟩ : ∃ last ∈ funcOffsetMap,
        ∀ offset ∈ funcOffsetMap.map Prod.snd, offset ≤ last.2 := by
      obtain ⟨last, inMap, most⟩ := funcOffsetMap.toFinset.exists_max_image Prod.snd
        (List.toFinset_nonempty_iff _ |>.mpr nonempty)
      refine ⟨last, List.mem_toFinset.mp inMap, fun offset member => ?_⟩
      obtain ⟨entry, inEntries, rfl⟩ := List.mem_map.mp member
      exact most entry (List.mem_toFinset.mpr inEntries)
    obtain ⟨symtab, run, -⟩ := right .hardware _ 0 (jumpTableAt_tableImage aligned bound)
    exact buildSymbolTable_tableImage aligned used inMap bound .hardware symtab run
  · intro zero target image base table
    exact buildSymbolTable_of_zero_mem distinct aligned zero target table

/-- A table with a used first slot and an obsolete one behind it. -/
def usedFirstMap : List (String × Nat) :=
  [("app_log", 8), ("accel_data", 0)]

def usedFirstImage : List UInt8 :=
  [0x12, 0x34, 0x01, 0x41, 0, 0x08, 0, 0, 0, 0, 0x03, 0x42, 0, 0x08]

theorem jumpTableAt_usedFirst : JumpTableAt usedFirstImage [8, 0] 2 where
  pointer := by decide
  zero := by
    rintro i ⟨largest, member, less⟩ clear
    have small : i < 8 := by
      rcases List.mem_pair.mp member with rfl | rfl <;> omega
    have behind := clear 0 (by simp)
    interval_cases i <;> first | omega | rfl
  odd := by
    intro offset member
    rcases List.mem_pair.mp member with rfl | rfl
    · exact ⟨0x03, rfl, rfl⟩
    · exact ⟨0x01, rfl, rfl⟩
  first := by
    intro earlier before fits
    have pointer := fits.pointer 0 (by simp)
    interval_cases earlier <;> cases pointer

theorem buildSymbolTable_usedFirst :
    ∃ symtab, buildSymbolTable .hardware usedFirstImage usedFirstMap = .ok symtab ∧
      SymbolsRight .hardware usedFirstImage 2 usedFirstMap symtab :=
  (buildSymbolTable_right_iff (by decide) (by decide) (by decide)).mpr (by decide) .hardware
    usedFirstImage 2 jumpTableAt_usedFirst

/-- With an obsolete first slot each function gets the address of the next one. -/
theorem buildSymbolTable_shifted :
    let funcOffsetMap : List (String × Nat) := [("accel_data", 4), ("app_log", 8)]
    let image : List UInt8 := [0, 0, 0, 0, 0x01, 0x41, 0, 0x08, 0x03, 0x42, 0, 0x08,
      0x05, 0x43, 0, 0x08]
    JumpTableAt image [4, 8] 0 ∧
      buildSymbolTable .hardware image funcOffsetMap =
        .ok [("accel_data", 0x202), ("app_log", 0x304)] ∧
      ¬ ∃ symtab, buildSymbolTable .hardware image funcOffsetMap = .ok symtab ∧
        SymbolsRight .hardware image 0 funcOffsetMap symtab := by
  intro funcOffsetMap image
  have run : buildSymbolTable .hardware image funcOffsetMap =
      .ok [("accel_data", 0x202), ("app_log", 0x304)] := by decide +kernel
  refine ⟨⟨⟨by decide, ?_⟩, ?_, fun earlier before => absurd before (Nat.not_lt_zero earlier)⟩,
    run, ?_⟩
  · rintro i ⟨largest, member, less⟩ clear
    have small : i < 8 := by
      rcases List.mem_pair.mp member with rfl | rfl <;> omega
    have outside := clear 4 (by simp)
    interval_cases i <;> first | omega | rfl
  · intro offset member
    rcases List.mem_pair.mp member with rfl | rfl
    · exact ⟨0x01, rfl, rfl⟩
    · exact ⟨0x03, rfl, rfl⟩
  · rintro ⟨symtab, runAgain, right⟩
    obtain rfl := Except.ok.inj (run.symm.trans runAgain)
    obtain ⟨word, slot, member⟩ := right.address ("accel_data", 4) (by simp [funcOffsetMap])
    obtain rfl : 0x08004101 = word := Except.ok.inj slot
    exact absurd member (by decide)

end PatchTools

end Elbbep
